import PixelEffect.Number.Ieee

open Float.Model

namespace PixelEffect

/-- The nonnegative number `significand * 10 ^ exponent`. -/
structure Decimal where
  significand : Nat
  exponent : Int
deriving DecidableEq

/-- Which of two decimals is taken when a number lies exactly between them. -/
inductive Tie
  | up
  | even
deriving DecidableEq

namespace Decimal

/-- The digits of the significand, the most significant first. -/
def digits (d : Decimal) : List Char := Nat.toDigits 10 d.significand

/-- The number is `0.d₁d₂d₃…` times this power of ten, where `d₁d₂d₃…` are the digits. -/
def point (d : Decimal) : Int := d.exponent + d.digits.length

/-- Drops the zeros at the end of the significand. `count` bounds their number. -/
def stripZeros : (count : Nat) → Decimal → Decimal
  | 0, d => d
  | count + 1, d =>
    if d.significand ≠ 0 ∧ d.significand % 10 = 0 then
      stripZeros count ⟨d.significand / 10, d.exponent + 1⟩
    else d

end Decimal

/-- A positive number `value / unit` with the ends of the interval of reals that round to it,
all three over the same unit. The ends belong to the interval if `closed`. -/
structure RoundingInterval where
  low : Nat
  value : Nat
  high : Nat
  unit : Nat
  closed : Bool

namespace RoundingInterval

/-- The interval around `mantissa * 2 ^ exponent` in the format `fmt`. The gap below a power of
two is half the gap above it, except at the lower end of the range of exponents. -/
def around (fmt : Format) (mantissa : Nat) (exponent : Int) : RoundingInterval :=
  let least : Int := 2 - (Nat.pow 2 (fmt.exponentBits - 1) + fmt.mantissaBitsWithoutImplicit : Nat)
  let scale := Nat.pow 2 (exponent - 2).toNat
  let below :=
    if mantissa = Nat.pow 2 fmt.mantissaBitsWithoutImplicit ∧ least < exponent then 1 else 2
  { low := (4 * mantissa - below) * scale
    value := 4 * mantissa * scale
    high := (4 * mantissa + 2) * scale
    unit := Nat.pow 2 (2 - exponent).toNat
    closed := mantissa % 2 = 0 }

def contains (i : RoundingInterval) (numerator denominator : Nat) : Bool :=
  if i.closed then
    i.low * denominator ≤ numerator * i.unit && numerator * i.unit ≤ i.high * denominator
  else
    i.low * denominator < numerator * i.unit && numerator * i.unit < i.high * denominator

/-- The power of ten just above the number: the least `p` with `value / unit < 10 ^ p`. -/
def decade (i : RoundingInterval) : Int :=
  let shift := i.unit.log2
  (Nat.toDigits 10 (i.value * Nat.pow 10 shift / i.unit)).length - shift

/-- The better one of the two neighbours of the number among the multiples of `10 ^ exponent`,
provided that it lies in the interval. -/
def onGrid? (i : RoundingInterval) (tie : Tie) (exponent : Int) : Option Decimal :=
  let numerator := Nat.pow 10 exponent.toNat
  let denominator := Nat.pow 10 (-exponent).toNat
  let step := numerator * i.unit
  let scaled := i.value * denominator
  let below := scaled / step
  let rest := 2 * (scaled % step)
  let lower := i.contains (below * numerator) denominator
  let upper := i.contains ((below + 1) * numerator) denominator
  if lower && upper then
    let takeUpper := if rest = step then tie = .up || below % 2 = 1 else step < rest
    some ⟨if takeUpper then below + 1 else below, exponent⟩
  else if lower then some ⟨below, exponent⟩
  else if upper then some ⟨below + 1, exponent⟩
  else none

/-- Tries the grids from the coarsest one on; seventeen digits tell any two doubles apart. -/
def shortest (i : RoundingInterval) (tie : Tie) : Decimal :=
  let top := i.decade
  let found := (List.range 17).findSome? fun (n : Nat) => i.onGrid? tie (top - 1 - n)
  (found.getD ⟨i.value, 0⟩).stripZeros 17

end RoundingInterval

/-- The shortest decimal of a finite number, without its sign. -/
def Ieee.shortest {fmt : Format} (x : Ieee fmt) (tie : Tie) : Decimal :=
  match x.unpack with
  | .finite _ mantissa exponent _ =>
    (RoundingInterval.around fmt mantissa exponent).shortest tie
  | _ => ⟨0, 0⟩

/-- The sign bit of a number; that of a NaN is not looked at. -/
def Ieee.isNegative {fmt : Format} (x : Ieee fmt) : Bool :=
  match x.unpack with
  | .infinity s | .zero s | .finite s _ _ _ => s == .negative
  | .notANumber => false

end PixelEffect
