import PixelEffect.Decimal.Numeral

namespace PixelEffect

/-- What a number of a JSON text stands for: an integer of at most 64 bits, or else a double. A
double is computed from at most 64 bits of the digits, so it may differ from the nearest one in its
last place. -/
inductive JsonNumber
  | integer (n : Int)
  | double (x : Double)
deriving DecidableEq

namespace JsonNumber

/-- The largest significand that digits are collected into. -/
def greatestSignificand : Nat := UInt64.size - 1

/-- Collects digits as long as the significand fits, and counts them. -/
def collect (significand : Nat) : List Char → Nat × Nat
  | [] => (significand, 0)
  | c :: rest =>
    let next := 10 * significand + Numeral.digitValue c
    if greatestSignificand < next then (significand, 0)
    else
      let (significand, count) := collect next rest
      (significand, count + 1)

/-- The power of ten as a double. -/
def powerOfTen (n : Nat) : Double := Ieee.ofDecimal false 1 n

/-- The greatest power of ten that is a double. -/
def greatestPower : Nat := 308

/-- Multiplies by `10 ^ exponent`, but not beyond the range of doubles. A large negative exponent
is taken in steps. Two of them make zero of any significand, which bounds their number. -/
def scale : (steps : Nat) → Double → Int → Option Double
  | steps, x, exponent =>
    if exponent.natAbs ≤ greatestPower then
      let power := powerOfTen exponent.natAbs
      if 0 ≤ exponent then
        let x := x * power
        if x.isFinite then some x else none
      else some (x / power)
    else if x.eq 0 then some x
    else if 0 ≤ exponent then none
    else
      match steps with
      | 0 => some 0
      | steps + 1 => scale steps (x / powerOfTen greatestPower) (exponent + greatestPower)

/-- The double `significand * 10 ^ exponent`, with the sign bit set if `negative`. -/
def ofParts (negative : Bool) (significand : Nat) (exponent : Int) : Option Double :=
  (scale 3 (Ieee.ofInt significand) exponent).map fun x => if negative then -x else x

/-- The double of a numeral. Digits of the whole part that do not fit count as zeros, such digits
of the fraction are dropped. -/
def doubleOf (n : Numeral) : Option Double :=
  let (significand, count) := collect 0 n.whole
  let missing := n.whole.length - count
  let (significand, places) := collect significand n.fraction
  ofParts n.negative significand (n.power + missing - places)

/-- Reads a numeral. A number beyond the range of doubles is refused. -/
def ofNumeral (n : Numeral) : Option JsonNumber :=
  let whole := Numeral.ofDigits n.whole
  let isInteger := n.fraction.isEmpty && n.exponent.isNone
  if isInteger && !n.negative && whole ≤ greatestSignificand then some (.integer whole)
  else if isInteger && n.negative && 0 < whole && whole ≤ UInt64.size / 2 then
    some (.integer (-whole))
  else (doubleOf n).map .double

/-- The number in the format `fmt`; a double beyond single precision becomes an infinity. -/
def toSingle : JsonNumber → Single
  | integer n => Ieee.ofInt n
  | double x => x.toSingle

def toDouble : JsonNumber → Double
  | integer n => Ieee.ofInt n
  | double x => x

end JsonNumber

/-- Numbers in JSON texts: a point or an exponent always shows, and a positive exponent has a plus
sign. -/
def NumberStyle.jsonSingle : NumberStyle := ⟨.even, some (-6), some 12, true, true⟩

def NumberStyle.jsonDouble : NumberStyle := ⟨.even, some (-5), some 15, true, true⟩

end PixelEffect
