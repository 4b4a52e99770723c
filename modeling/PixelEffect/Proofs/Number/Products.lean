import PixelEffect.Color
import PixelEffect.Decimal.Shortest
import PixelEffect.Proofs.Number.UnitInterval

open Float.Model Float.Model.UnpackedFloat

namespace PixelEffect

namespace Ieee

open Rounding

variable {x y : Single}

/-- A NaN has all bits of the exponent set and some of the mantissa. -/
theorem isNaN_eq (x : Single) : x.isNaN = isNaNBits x.bits := by
  unfold isNaN Ieee.unpack UnpackedFloat.unpack isNaNBits
  by_cases hexponent : unpackExponent x.bits = -1#8
  · by_cases hmantissa : unpackMantissa x.bits = 0#23 <;> simp [hexponent, hmantissa]
  · simp only [hexponent, if_false, false_and, decide_false]
    by_cases hzero : unpackExponent x.bits = 0#8
    · by_cases hmantissa : unpackMantissa x.bits = 0#23 <;>
        simp only [hzero, hmantissa, if_true, dite_true, dite_false]
    · simp only [hzero, if_false]

/-- A NaN that is made quiet is still one. -/
theorem isNaN_quiet (h : x.isNaN) : x.quiet.isNaN := by
  rw [isNaN_eq] at h ⊢
  simp only [isNaNBits, decide_eq_true_eq, unpackExponent_def, unpackMantissa_def, quiet,
    BitVec.extractLsb'_or] at h ⊢
  constructor
  · rw [h.1]
    decide
  · intro hzero
    -- The bit that makes a NaN quiet is the highest one of the mantissa.
    have hbit := congrArg (fun bits => bits.getLsbD 22) hzero
    simp only [BitVec.getLsbD_or, BitVec.getLsbD_extractLsb', BitVec.getLsbD_twoPow,
      BitVec.getLsbD_zero, Bool.or_eq_false_iff] at hbit
    exact absurd hbit.2 (by decide)

/-- Unless it is a NaN, a number can be put together again from its parts. -/
theorem pack_unpack (h : x.isNaN = false) : pack x.unpack = x := by
  have hbits : UnpackedFloat.pack Format.binary32 x.unpack = x.bits := by
    rw [Ieee.unpack, UnpackedFloat.pack_unpack, ← isNaN_eq, h]
    rfl
  unfold isNaN at h
  unfold pack
  split
  · rename_i hnan
    rw [hnan] at h
    cases h
  · rw [hbits]

/-- Finite numbers are those that are neither NaN nor infinite. -/
theorem isFinite_iff : x.isFinite ↔ x.isNaN = false ∧ ∀ s, x.unpack ≠ .infinity s := by
  unfold isFinite isNaN
  cases x.unpack <;> simp

/-- A product of numbers that are not NaN is computed from their parts. -/
theorem mul_eq_pack (hx : x.isNaN = false) (hy : y.isNaN = false) :
    x * y = pack (UnpackedFloat.mul Format.binary32 x.unpack y.unpack) := by
  change lift₂ _ x y = _
  rw [lift₂, hx, hy]
  rfl

/-- A product with an infinity is not finite. -/
theorem not_isFinite_pack_mul {u v : UnpackedFloat}
    (h : (∃ s, u = .infinity s) ∨ ∃ s, v = .infinity s) :
    (pack (UnpackedFloat.mul Format.binary32 u v) : Single).isFinite = false := by
  have hinfinity : ∀ s, (pack (.infinity s) : Single).isFinite = false := by
    intro s
    cases s <;> rfl
  have hinvalid : (invalid : Single).isFinite = false := rfl
  rcases h with ⟨s, rfl⟩ | ⟨s, rfl⟩
  · cases v with
    | notANumber | zero => exact hinvalid
    | infinity | finite => exact hinfinity _
  · cases u with
    | notANumber | zero => exact hinvalid
    | infinity | finite => exact hinfinity _

/-- A product is finite only if its factors are. -/
theorem isFinite_of_mul (h : (x * y).isFinite) : x.isFinite ∧ y.isFinite := by
  have hnan : (lift₂ (UnpackedFloat.mul Format.binary32) x y).isNaN = false := (isFinite_iff.mp h).1
  have hx : x.isNaN = false := by
    by_contra hx
    rw [Bool.not_eq_false] at hx
    rw [lift₂, if_pos hx, isNaN_quiet hx] at hnan
    cases hnan
  have hy : y.isNaN = false := by
    by_contra hy
    rw [Bool.not_eq_false] at hy
    rw [lift₂, hx, if_neg Bool.false_ne_true, if_pos hy, isNaN_quiet hy] at hnan
    cases hnan
  rw [mul_eq_pack hx hy] at h
  constructor
  · refine isFinite_iff.mpr ⟨hx, fun s hs => ?_⟩
    rw [not_isFinite_pack_mul (.inl ⟨s, hs⟩)] at h
    cases h
  · refine isFinite_iff.mpr ⟨hy, fun s hs => ?_⟩
    rw [not_isFinite_pack_mul (.inr ⟨s, hs⟩)] at h
    cases h

/-- One times a number is that number, bit for bit. -/
theorem mul_isOne (hx : x.isFinite) (hy : y.IsOne) : x * y = x := by
  obtain ⟨hnan, hinfinity⟩ := isFinite_iff.mp hx
  have hone : UnpackedFloat.mul Format.binary32 x.unpack y.unpack = x.unpack := by
    have hstored := stored_unpack x
    rw [hy.unpack_eq]
    cases hunpack : x.unpack with
    | notANumber => rfl
    | infinity s => exact absurd hunpack (hinfinity s)
    | zero s => cases s <;> rfl
    | finite s m e hm =>
      rw [hunpack] at hstored
      simp only [signedOne, UnpackedFloat.mul, ← Int.sub_eq_add_neg]
      rw [roundWithAccuracy_mul_pow _ hm hstored]
      cases s <;> rfl
  rw [mul_eq_pack hnan (isNaN_of_units hy), hone, pack_unpack hnan]

/-- Zero times a number is the zero that has the sign of the number. -/
theorem zero_mul (hx : x.isFinite) : 0 * x = if x.isNegative then -0 else 0 := by
  obtain ⟨hnan, hinfinity⟩ := isFinite_iff.mp hx
  have hzero : (0 : Single).unpack = .zero .positive := rfl
  rw [mul_eq_pack rfl hnan, hzero, isNegative]
  cases hunpack : x.unpack with
  | notANumber =>
    rw [isNaN, hunpack] at hnan
    cases hnan
  | infinity s => exact absurd hunpack (hinfinity s)
  | zero s | finite s => cases s <;> rfl

end Ieee

namespace Color

variable {c : Color Single} {x : Single}

theorem isFinite_iff :
    c.isFinite ↔ c.r.isFinite ∧ c.g.isFinite ∧ c.b.isFinite ∧ c.a.isFinite := by
  simp [isFinite, toList]

/-- Scaling a color by one leaves it as it is. -/
theorem scale_isOne (hc : c.isFinite) (hx : x.IsOne) : c.scale x = c := by
  obtain ⟨hr, hg, hb, ha⟩ := isFinite_iff.mp hc
  simp only [scale, map, Ieee.mul_isOne hr hx, Ieee.mul_isOne hg hx, Ieee.mul_isOne hb hx,
    Ieee.mul_isOne ha hx]

/-- Scaling the transparent color may change the signs of its zeros. -/
theorem transparent_scale (h : (transparent.scale x).isFinite) :
    transparent.scale x = if x.isNegative then ⟨-0, -0, -0, -0⟩ else transparent := by
  have hx := (Ieee.isFinite_of_mul (isFinite_iff.mp h).1).2
  simp only [scale, map, transparent, Ieee.zero_mul hx]
  split <;> rfl

end Color

end PixelEffect
