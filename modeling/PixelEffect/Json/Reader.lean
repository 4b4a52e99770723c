import PixelEffect.Decimal.Reader
import PixelEffect.Json.Basic

namespace PixelEffect.Json

/-- Takes the start of a text and yields what it has read together with the text behind it. A text
that is not JSON is refused without a reason. -/
abbrev Reader (α : Type) := List Char → Option (α × List Char)

def isBlank (c : Char) : Bool := c = ' ' || c = '\t' || c = '\n' || c = '\r'

def skipBlanks (cs : List Char) : List Char := cs.dropWhile isBlank

namespace Reader

def hexValue? (c : Char) : Option Nat :=
  if c.isDigit then some (c.toNat - '0'.toNat)
  else if 'a' ≤ c ∧ c ≤ 'f' then some (c.toNat - 'a'.toNat + 10)
  else if 'A' ≤ c ∧ c ≤ 'F' then some (c.toNat - 'A'.toNat + 10)
  else none

/-- Four hexadecimal digits. -/
def hexUnit : Reader Nat
  | c₁ :: c₂ :: c₃ :: c₄ :: rest => do
    let n₁ ← hexValue? c₁
    let n₂ ← hexValue? c₂
    let n₃ ← hexValue? c₃
    let n₄ ← hexValue? c₄
    return (((n₁ * 16 + n₂) * 16 + n₃) * 16 + n₄, rest)
  | _ => none

/-- The character behind `\u`. One beyond the basic plane is written as two units. -/
def unicode : Reader Char := fun cs => do
  let (high, rest) ← hexUnit cs
  if 0xDC00 ≤ high ∧ high ≤ 0xDFFF then none
  else if 0xD800 ≤ high ∧ high ≤ 0xDBFF then
    match rest with
    | '\\' :: 'u' :: rest =>
      let (low, rest) ← hexUnit rest
      if 0xDC00 ≤ low ∧ low ≤ 0xDFFF then
        return (Char.ofNat (0x10000 + (high - 0xD800) * 0x400 + (low - 0xDC00)), rest)
      else none
    | _ => none
  else return (Char.ofNat high, rest)

/-- One character of a string, which may be escaped. -/
def character : Reader Char
  | '\\' :: 'u' :: rest => unicode rest
  | '\\' :: c :: rest =>
    match c with
    | '"' => some ('"', rest)
    | '\\' => some ('\\', rest)
    | '/' => some ('/', rest)
    | 'b' => some ('\x08', rest)
    | 'f' => some ('\x0c', rest)
    | 'n' => some ('\n', rest)
    | 'r' => some ('\r', rest)
    | 't' => some ('\t', rest)
    | _ => none
  | c :: rest => if c.toNat < 0x20 || c = '\\' then none else some (c, rest)
  | [] => none

/-- The characters of a string up to the closing quote. `fuel` bounds their number. -/
def characters : (fuel : Nat) → Reader (List Char)
  | 0, _ => none
  | _ + 1, '"' :: rest => some ([], rest)
  | fuel + 1, cs => do
    let (c, cs) ← character cs
    let (text, cs) ← characters fuel cs
    return (c :: text, cs)

/-- A string behind its opening quote. -/
def string : Reader String := fun cs => do
  let (text, rest) ← characters (cs.length + 1) cs
  return (String.ofList text, rest)

/-- One digit or more. -/
def digits : Reader (List Char) := fun cs =>
  let (run, rest) := Numeral.digitRun cs
  if run.isEmpty then none else some (run, rest)

/-- Digits without a zero in front. -/
def whole : Reader (List Char)
  | '0' :: rest => some (['0'], rest)
  | cs => digits cs

def fraction : Reader (List Char)
  | '.' :: rest => digits rest
  | cs => some ([], cs)

def exponent : Reader (Option (ExponentSign × List Char))
  | c :: rest =>
    if c = 'e' || c = 'E' then do
      let (sign, rest) : ExponentSign × List Char := match rest with
        | '+' :: rest => (.plus, rest)
        | '-' :: rest => (.minus, rest)
        | rest => (.absent, rest)
      let (run, rest) ← digits rest
      return (some (sign, run), rest)
    else some (none, c :: rest)
  | [] => some (none, [])

/-- A number. It has to be in the range of doubles. -/
def numeral : Reader Numeral := fun cs => do
  let (negative, cs) : Bool × List Char := match cs with
    | '-' :: rest => (true, rest)
    | cs => (false, cs)
  let (whole, cs) ← whole cs
  let (fraction, cs) ← fraction cs
  let (exponent, cs) ← exponent cs
  let n : Numeral := { negative, whole, fraction, exponent }
  if (JsonNumber.ofNumeral n).isSome then some (n, cs) else none

/-- A value without parts. -/
def scalar : Reader Json
  | 'n' :: 'u' :: 'l' :: 'l' :: rest => some (.null, rest)
  | 't' :: 'r' :: 'u' :: 'e' :: rest => some (.bool true, rest)
  | 'f' :: 'a' :: 'l' :: 's' :: 'e' :: rest => some (.bool false, rest)
  | '"' :: rest => do
    let (s, rest) ← string rest
    return (.string s, rest)
  | cs => do
    let (n, rest) ← numeral cs
    return (.number n, rest)

/-- One item or more, separated by commas, up to a closing bracket. `fuel` bounds their number. -/
def items {α : Type} (close : Char) (item : Reader α) : (fuel : Nat) → Reader (List α)
  | 0, _ => none
  | fuel + 1, cs => do
    let (x, cs) ← item (skipBlanks cs)
    match skipBlanks cs with
    | c :: cs =>
      if c = close then return ([x], cs)
      else if c = ',' then
        let (xs, cs) ← items close item fuel cs
        return (x :: xs, cs)
      else none
    | [] => none

/-- The items behind an opening bracket, none of them if it is closed at once. -/
def sequence {α : Type} (close : Char) (item : Reader α) : Reader (List α) := fun cs =>
  match skipBlanks cs with
  | c :: rest =>
    if c = close then some ([], rest) else items close item (cs.length + 1) cs
  | [] => none

/-- A name and a value with a colon in between. -/
def member (value : Reader Json) : Reader (String × Json)
  | '"' :: rest => do
    let (name, rest) ← string rest
    match skipBlanks rest with
    | ':' :: rest =>
      let (v, rest) ← value (skipBlanks rest)
      return ((name, v), rest)
    | _ => none
  | _ => none

/-- A value whose arrays and objects are nested at most `depth` deep. -/
def value : (depth : Nat) → Reader Json
  | 0, cs => scalar cs
  | depth + 1, cs =>
    match cs with
    | '[' :: rest => do
      let (items, rest) ← sequence ']' (value depth) rest
      return (.array items, rest)
    | '\x7b' :: rest => do
      let (members, rest) ← sequence '\x7d' (member (value depth)) rest
      return (.object members, rest)
    | cs => scalar cs

end Reader

/-- How deep arrays and objects may be nested. -/
def nestingLimit : Nat := 127

/-- Reads a text that is one value and nothing else. -/
def ofText (text : String) : Option Json := do
  let (v, rest) ← Reader.value nestingLimit (skipBlanks text.toList)
  if (skipBlanks rest).isEmpty then some v else none

end PixelEffect.Json
