import PixelEffect.Number.Ieee

namespace PixelEffect

/-- The operations and comparisons that color arithmetic is written with. Effects are evaluated in
single precision; the same definitions can be read over any other type that has them. -/
class Scalar (α : Type) extends Zero α, One α, Add α, Sub α, Mul α, Div α, Neg α where
  /-- The number that a parameter of an effect stands for. -/
  ofSingle : Single → α
  lt : α → α → Bool
  le : α → α → Bool
  eq : α → α → Bool

instance : Scalar Single where
  ofSingle x := x
  lt := Ieee.lt
  le := Ieee.le
  eq := Ieee.eq

namespace Scalar

variable {α : Type} [Scalar α]

/-- The nearest number between `low` and `high`, for `low ≤ high`. A NaN stays as it is. -/
def between (low high x : α) : α :=
  if lt x low then low else if lt high x then high else x

/-- The nearest number of the unit interval. -/
def unit (x : α) : α := between 0 1 x

/-- The smaller one of `x` and one; of a NaN, one. -/
def atMostOne (x : α) : α := if lt x 1 then x else 1

end Scalar

end PixelEffect
