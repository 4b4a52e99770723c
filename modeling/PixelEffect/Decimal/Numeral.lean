import PixelEffect.Decimal.Shortest

namespace PixelEffect

/-- A sign in front of an exponent, as written. -/
inductive ExponentSign
  | absent
  | plus
  | minus
deriving DecidableEq

/-- A number as it is written. No point stands in front of an empty fraction. -/
structure Numeral where
  negative : Bool
  whole : List Char
  fraction : List Char
  exponent : Option (ExponentSign × List Char)
deriving DecidableEq

namespace Numeral

/-- The value of a digit. -/
def digitValue (c : Char) : Nat := c.toNat - '0'.toNat

def ofDigits (ds : List Char) : Nat := ds.foldl (fun n c => 10 * n + digitValue c) 0

/-- The power of ten that the exponent names; one without an exponent. -/
def power (n : Numeral) : Int :=
  match n.exponent with
  | none => 0
  | some (.minus, ds) => -(ofDigits ds : Int)
  | some (_, ds) => ofDigits ds

/-- The exact value without its sign. -/
def magnitude (n : Numeral) : Decimal :=
  ⟨ofDigits (n.whole ++ n.fraction), n.power - n.fraction.length⟩

/-- The number nearest to the written one. -/
def nearest {fmt : Float.Model.Format} (n : Numeral) : Ieee fmt :=
  Ieee.ofDecimal n.negative n.magnitude.significand n.magnitude.exponent

def exponentChars : ExponentSign × List Char → List Char
  | (.absent, ds) => 'e' :: ds
  | (.plus, ds) => 'e' :: '+' :: ds
  | (.minus, ds) => 'e' :: '-' :: ds

def toChars (n : Numeral) : List Char :=
  (if n.negative then ['-'] else []) ++ n.whole
    ++ (if n.fraction.isEmpty then [] else '.' :: n.fraction)
    ++ (n.exponent.map exponentChars).getD []

end Numeral

/-- How numbers are laid out. A number whose leading digit stands for `10 ^ e` is written without
an exponent if `least ≤ e ≤ greatest`. -/
structure NumberStyle where
  tie : Tie
  least : Option Int
  greatest : Option Int
  /-- Whole numbers are written with one zero after the point. -/
  keepFraction : Bool
  /-- Exponents that are not negative carry a plus sign. -/
  plusSign : Bool

namespace NumberStyle

def isPositional (style : NumberStyle) (e : Int) : Bool :=
  style.least.all (· ≤ e) && style.greatest.all (e ≤ ·)

/-- The digits with a point where it belongs, zeros filled in on either side. -/
def positional (style : NumberStyle) (negative : Bool) (d : Decimal) : Numeral :=
  let digits := d.digits
  let point := d.point
  let whole := if point ≤ 0 then ['0']
    else digits.take point.toNat ++ List.replicate (point.toNat - digits.length) '0'
  let fraction := List.replicate (-point).toNat '0' ++ digits.drop point.toNat
  { negative, whole
    fraction := if fraction.isEmpty && style.keepFraction then ['0'] else fraction
    exponent := none }

/-- The first digit, the others behind a point, and an exponent. -/
def scientific (style : NumberStyle) (negative : Bool) (d : Decimal) : Numeral :=
  let digits := d.digits
  let e := d.point - 1
  let sign := if e < 0 then .minus else if style.plusSign then .plus else .absent
  { negative, whole := digits.take 1, fraction := digits.drop 1
    exponent := some (sign, Nat.toDigits 10 e.natAbs) }

/-- The numeral of a finite number. -/
def numeral {fmt : Float.Model.Format} (style : NumberStyle) (x : Ieee fmt) : Numeral :=
  let d := x.shortest style.tie
  if d.significand = 0 then
    { negative := x.isNegative, whole := ['0']
      fraction := if style.keepFraction then ['0'] else [], exponent := none }
  else if style.isPositional (d.point - 1) then style.positional x.isNegative d
  else style.scientific x.isNegative d

/-- The text of a number. A NaN is written without a sign. -/
def text {fmt : Float.Model.Format} (style : NumberStyle) (x : Ieee fmt) : String :=
  if x.isNaN then "NaN"
  else if x.isFinite then String.ofList (style.numeral x).toChars
  else if x.isNegative then "-inf" else "inf"

/-- Plain numbers: never an exponent, and no point after a whole number. -/
def plain : NumberStyle := ⟨.up, none, none, false, false⟩

/-- Numbers that cannot be taken for integers: a point or an exponent always shows. -/
def floating : NumberStyle := ⟨.up, some (-4), some 15, true, false⟩

/-- The text `[x, y, …]` of a list of numbers. -/
def listText {fmt : Float.Model.Format} (style : NumberStyle) (xs : List (Ieee fmt)) : String :=
  "[" ++ ", ".intercalate (xs.map style.text) ++ "]"

end NumberStyle

end PixelEffect
