import Mathlib.Algebra.Order.Field.Rat
import Mathlib.Tactic.NormNum
import PixelEffect.Color
import PixelEffect.Node.Evaluation

open Float.Model

namespace PixelEffect

namespace Ieee

/-- The number that a float stands for. Infinities and NaN stand for none and count as zero. -/
def toRat {fmt : Format} (x : Ieee fmt) : ℚ :=
  match x.unpack with
  | .finite .positive mantissa exponent _ => mantissa * 2 ^ exponent
  | .finite .negative mantissa exponent _ => -(mantissa * 2 ^ exponent)
  | .zero _ | .infinity _ | .notANumber => 0

theorem toRat_zero : (0 : Single).toRat = 0 := rfl

theorem toRat_one : (1 : Single).toRat = 1 := by
  have hunpack : (1 : Single).unpack = .finite .positive 8388608 (-23) (by decide) := rfl
  rw [toRat, hunpack]
  norm_num

end Ieee

/-- Exact arithmetic. -/
instance : Scalar ℚ where
  ofSingle x := x.toRat
  lt x y := decide (x < y)
  le x y := decide (x ≤ y)
  eq x y := decide (x = y)

namespace Scalar

theorem ofSingle_rat (x : Single) : (ofSingle x : ℚ) = x.toRat := rfl

variable {x y z : ℚ}

theorem lt_rat : lt x y = decide (x < y) := rfl

theorem eq_rat : eq x y = decide (x = y) := rfl

/-- Without rounding, bounding is the minimum of the maximum. -/
theorem between_rat (h : x ≤ y) : between x y z = min (max z x) y := by
  unfold between
  simp only [lt_rat, decide_eq_true_eq]
  split
  · rename_i hlow
    rw [max_eq_right hlow.le, min_eq_left h]
  · rename_i hlow
    rw [max_eq_left (not_lt.mp hlow)]
    split
    · rename_i hhigh
      rw [min_eq_right hhigh.le]
    · rename_i hhigh
      rw [min_eq_left (not_lt.mp hhigh)]

theorem unit_rat : unit x = min (max x 0) 1 := between_rat zero_le_one

theorem atMostOne_rat : atMostOne x = min x 1 := by
  unfold atMostOne
  simp only [lt_rat, decide_eq_true_eq]
  split
  · rename_i h
    rw [min_eq_left h.le]
  · rename_i h
    rw [min_eq_right (not_lt.mp h)]

/-- Between bounds that are in order clamping always has a result. -/
theorem clamp_rat (h : x ≤ y) : clamp x y z = .ok (min (max z x) y) := by
  have hle : le x y = true := decide_eq_true h
  rw [clamp, if_pos hle, between_rat h]

end Scalar

/-- Without rounding, premultiplied clamping always has an answer. -/
theorem Color.clampPremul_rat (c : Color ℚ) :
    c.clampPremul =
      .ok ⟨min (max c.r 0) (Scalar.unit c.a), min (max c.g 0) (Scalar.unit c.a),
        min (max c.b 0) (Scalar.unit c.a), Scalar.unit c.a⟩ := by
  have halpha : (0 : ℚ) ≤ Scalar.unit c.a := by
    rw [Scalar.unit_rat]
    exact le_min (le_max_right _ _) zero_le_one
  have hclamp : Scalar.clamp 0 1 c.a = .ok (Scalar.unit c.a) := by
    rw [Scalar.clamp_rat zero_le_one, Scalar.unit_rat]
  simp only [clampPremul, hclamp, bind, Except.bind, Scalar.clamp_rat halpha]
  rfl

end PixelEffect
