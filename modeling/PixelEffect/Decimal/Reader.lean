import PixelEffect.Decimal.Numeral

namespace PixelEffect

/-- Why a text is not a number. -/
inductive NumeralError
  | empty
  | invalid
deriving DecidableEq

namespace NumeralError

def message : NumeralError → String
  | empty => "cannot parse float from empty string"
  | invalid => "invalid float literal"

end NumeralError

namespace Numeral

/-- A leading sign, and the text behind it. -/
def signed : List Char → Bool × List Char
  | '-' :: rest => (true, rest)
  | '+' :: rest => (false, rest)
  | cs => (false, cs)

/-- The digits at the start of a text, and the text behind them. -/
def digitRun (cs : List Char) : List Char × List Char :=
  (cs.takeWhile Char.isDigit, cs.dropWhile Char.isDigit)

/-- What may follow the digits and the point: nothing, or a whole exponent. -/
def exponentEnd? : List Char → Option (Option (ExponentSign × List Char))
  | [] => some none
  | c :: rest =>
    if c = 'e' ∨ c = 'E' then
      let (sign, rest) : ExponentSign × List Char := match rest with
        | '+' :: rest => (.plus, rest)
        | '-' :: rest => (.minus, rest)
        | rest => (.absent, rest)
      let (digits, rest) := digitRun rest
      if digits.isEmpty || !rest.isEmpty then none else some (some (sign, digits))
    else none

/-- Reads an unsigned numeral. Digits may be missing on one side of the point. -/
def unsigned? (negative : Bool) (cs : List Char) : Option Numeral :=
  let (whole, rest) := digitRun cs
  let (fraction, rest) := match rest with
    | '.' :: rest => digitRun rest
    | rest => ([], rest)
  if whole.isEmpty && fraction.isEmpty then none
  else (exponentEnd? rest).map fun exponent => ⟨negative, whole, fraction, exponent⟩

end Numeral

/-- The quiet NaN that the word `nan` stands for. -/
def Ieee.writtenNaN : Single := Ieee.ofUInt32 0x7fc00000

/-- Reads a number in single precision. The words `inf`, `infinity` and `nan` are read in any
case, and every text may carry one sign. -/
def Ieee.ofText (text : String) : Except NumeralError Single :=
  let cs := text.toList
  if cs.isEmpty then .error .empty
  else
    let (negative, rest) := Numeral.signed cs
    let word := String.ofList (rest.map Char.toLower)
    let special? : Option Single :=
      if word = "inf" ∨ word = "infinity" then some (1 / 0)
      else if word = "nan" then some Ieee.writtenNaN
      else none
    match special? with
    | some x => .ok (if negative then -x else x)
    | none =>
      match Numeral.unsigned? negative rest with
      | some n => .ok n.nearest
      | none => .error .invalid

end PixelEffect
