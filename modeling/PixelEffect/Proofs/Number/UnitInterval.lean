import PixelEffect.Number.Scalar
import PixelEffect.Proofs.Number.Units

open Float.Model Float.Model.UnpackedFloat

namespace PixelEffect.Ieee

open Rounding

/-- Equal to one. -/
def IsOne (x : Single) : Prop := x.units? = some (2 ^ 149)

theorem isOne_one : IsOne 1 := by
  unfold IsOne units?
  rw [unpack_one]
  rfl

/-- Being numerically one leaves no choice of bits. -/
theorem IsOne.unpack_eq {x : Single} (h : x.IsOne) : x.unpack = signedOne .positive := by
  apply eq_signedOne_of_beq
  unfold UnpackedFloat.beq
  rw [compare_one (stored_unpack x) h]
  rfl

theorem isOne_iff {x : Single} : x.IsOne ↔ Scalar.eq x 1 := by
  have heq : Scalar.eq x 1 = x.unpack.beq (signedOne .positive) := by
    rw [← unpack_one]
    rfl
  rw [heq]
  constructor
  · intro h
    rw [h.unpack_eq]
    rfl
  · intro h
    unfold IsOne units?
    rw [eq_signedOne_of_beq h]
    rfl

variable {x y z : Single} {a : Int}

/-- A product with one has the value of the other factor. -/
theorem units?_mul_one (hx : x.units? = some a) (hy : y.IsOne) : (x * y).units? = some a := by
  refine units?_lift₂ (UnpackedFloat.mul _) hx hy ?_
  rw [hy.unpack_eq]
  exact mul_one_spec .positive (stored_unpack x) hx

theorem units?_one_mul (hx : x.units? = some a) (hy : y.IsOne) : (y * x).units? = some a := by
  refine units?_lift₂ (UnpackedFloat.mul _) hy hx ?_
  rw [hy.unpack_eq, Rounding.mul_comm]
  exact mul_one_spec .positive (stored_unpack x) hx

/-- A product with minus one has the opposite value. -/
theorem units?_mul_neg_one (hx : x.units? = some a) : (x * (-1)).units? = some (-a) := by
  have hneg : (-1 : Single).unpack = signedOne .negative := rfl
  have hunits : (-1 : Single).units? = some (-2 ^ 149) := by
    unfold units?
    rw [hneg]
    rfl
  refine units?_lift₂ (UnpackedFloat.mul _) hx hunits ?_
  rw [hneg]
  exact mul_one_spec .negative (stored_unpack x) hx

theorem units?_mul_zero (hx : x.units? = some a) (hy : y.units? = some 0) :
    (x * y).units? = some 0 := by
  obtain ⟨s, hzero⟩ := eq_zero_of_units hy
  refine units?_lift₂ (UnpackedFloat.mul _) hx hy ?_
  rw [hzero]
  exact mul_zero_spec hx

theorem compare_one_of_units (hx : x.units? = some a) :
    x.unpack.compare (1 : Single).unpack = some (compare a (2 ^ 149)) := by
  rw [unpack_one]
  exact compare_one (stored_unpack x) hx

/-- Comparing with one compares the multiples. -/
theorem lt_one_eq_false (hx : x.units? = some a) (h : 2 ^ 149 ≤ a) : Scalar.lt x 1 = false := by
  have hlt : Scalar.lt x 1 = (x.unpack.compare (1 : Single).unpack == some .lt) := rfl
  rw [hlt, compare_one_of_units hx]
  rcases h.eq_or_lt with heq | hlt
  · rw [compare_eq_iff_eq.mpr heq.symm]
    rfl
  · rw [compare_gt_iff_gt.mpr hlt]
    rfl

theorem units_le_one (hx : x.units? = some a) (h : Scalar.le x 1) : a ≤ 2 ^ 149 := by
  have hle : Scalar.le x 1 = (x.unpack.compare (1 : Single).unpack).any (·.isLE) := rfl
  rw [hle, compare_one_of_units hx] at h
  exact Std.isLE_compare.mp h

/-- A number from zero to one. -/
def InUnit (x : Single) : Prop := Scalar.le 0 x ∧ Scalar.le x 1

instance : DecidablePred InUnit := fun _ => inferInstanceAs (Decidable (_ ∧ _))

/-- A number of the unit interval is a multiple between zero and that of one. -/
theorem InUnit.units (h : x.InUnit) : ∃ n : Nat, n ≤ 2 ^ 149 ∧ x.units? = some (n : Int) := by
  obtain ⟨hzero, hone⟩ := h
  obtain ⟨n, hn⟩ : ∃ n : Nat, x.units? = some (n : Int) := by
    have hzero : UnpackedFloat.le (.zero .positive) x.unpack := hzero
    have hone : UnpackedFloat.le x.unpack (1 : Single).unpack := hone
    rw [unpack_one] at hone
    unfold units?
    generalize x.unpack = u at *
    cases u with
    | notANumber => cases hzero
    | infinity s =>
      cases s with
      | negative => cases hzero
      | positive => cases hone
    | zero s => exact ⟨0, rfl⟩
    | finite s m e hm =>
      cases s with
      | negative => cases hzero
      | positive => exact ⟨m * 2 ^ (e + 149).toNat, by simp [Rounding.units?, Sign.apply]⟩
  have hle := units_le_one hn hone
  exact ⟨n, by omega, hn⟩

/-- Clamping to the unit interval does not change one. -/
theorem IsOne.unit (h : x.IsOne) : (Scalar.unit x).IsOne := by
  have hlow : Scalar.lt x 0 = UnpackedFloat.lt x.unpack (.zero .positive) := rfl
  have hhigh : Scalar.lt 1 x = UnpackedFloat.lt (1 : Single).unpack x.unpack := rfl
  have hunit : Scalar.unit x = x := by
    unfold Scalar.unit Scalar.between
    rw [hlow, hhigh, h.unpack_eq, unpack_one]
    rfl
  rw [hunit]
  exact h

theorem IsOne.mul (hx : x.IsOne) (hy : y.IsOne) : (x * y).IsOne := units?_mul_one hx hy

/-- Nothing of the other operand is left behind an opaque one. -/
theorem IsOne.add_mul_sub_self (hx : x.IsOne) (hy : y.units? = some a) :
    (x + y * (1 - x)).IsOne := by
  have hsub : (1 - x).units? = some 0 := units?_sub isOne_one hx (by omega) (by omega)
  have hmul := units?_mul_zero hy hsub
  exact units?_add hx hmul (by omega) (by omega)

/-- What a number lacks of one, added to it, gives one in spite of rounding. -/
theorem InUnit.add_mul_sub (hx : x.InUnit) (hy : y.IsOne) (hz : z.units? = x.units?) :
    (z + y * (1 - x)).IsOne := by
  obtain ⟨n, hn, hunits⟩ := hx.units
  have hsub : (1 - x).units? = some (round24 (2 ^ 149 - n) : Int) := by
    have htoNat : ((2 : Int) ^ 149 - n).toNat = 2 ^ 149 - n := by omega
    rw [← htoNat]
    exact units?_sub isOne_one hunits (by omega) (by omega)
  have hmul := units?_one_mul hsub hy
  have herror := round24_error (n := 2 ^ 149 - n) (k := 125) (by omega)
  rw [hunits] at hz
  have hadd := units?_add hz hmul (by omega) (by omega)
  unfold IsOne
  rw [hadd, round24_eq_one (by omega) (by omega)]
  rfl

section

variable {n : Nat}

/-- A sum of one and an alpha is rounded once. -/
theorem units?_one_add (hx : x.units? = some (n : Int)) (hn : n ≤ 2 ^ 149) (hy : y.IsOne) :
    (y + x).units? = some (round24 (2 ^ 149 + n) : Int) := by
  have htoNat : ((2 : Int) ^ 149 + n).toNat = 2 ^ 149 + n := by omega
  rw [← htoNat]
  exact units?_add hy hx (by omega) (by omega)

theorem units?_add_one (hx : x.units? = some (n : Int)) (hn : n ≤ 2 ^ 149) (hy : y.IsOne) :
    (x + y).units? = some (round24 (2 ^ 149 + n) : Int) := by
  have htoNat : ((n : Int) + 2 ^ 149).toNat = 2 ^ 149 + n := by omega
  rw [← htoNat]
  exact units?_add hx hy (by omega) (by omega)

/-- A sum with one does not fall below one. -/
theorem atMostOne_of_units (hx : x.units? = some (round24 (2 ^ 149 + n) : Int)) :
    Scalar.atMostOne x = 1 := by
  have hround : 2 ^ 149 ≤ round24 (2 ^ 149 + n) := le_round24 (by decide) (by omega)
  unfold Scalar.atMostOne
  rw [lt_one_eq_false hx (by omega)]
  rfl

/-- The sum with one, rounded to single precision, falls short of the exact sum by at most a quarter
of the last bit of one. -/
def NearSum (x : Single) : Prop :=
  ∀ n s : Int, x.units? = some n → (1 + x).units? = some s → 2 ^ 149 + n ≤ s + 2 ^ 124

/-- What is lost in the sum with one is a matter of its multiple. -/
theorem nearSum_iff (hx : x.units? = some (n : Int)) (hn : n ≤ 2 ^ 149) :
    x.NearSum ↔ 2 ^ 149 + n ≤ round24 (2 ^ 149 + n) + 2 ^ 124 := by
  unfold NearSum
  rw [hx, units?_one_add hx hn isOne_one]
  constructor
  · intro h
    have := h _ _ rfl rfl
    omega
  · rintro h _ _ ⟨⟩ ⟨⟩
    omega

/-- Screening over one takes away again what was added to one. The error of the sum decides whether
one is left. -/
theorem screen_isOne_iff (hx : x.units? = some (n : Int)) (hn : n ≤ 2 ^ 149)
    (hy : y.units? = some (round24 (2 ^ 149 + n) : Int)) (hz : z.units? = some (n : Int)) :
    (y + z * (-1)).IsOne ↔ x.NearSum := by
  have hround : 2 ^ 149 ≤ round24 (2 ^ 149 + n) := le_round24 (by decide) (by omega)
  have herror := round24_error (n := 2 ^ 149 + n) (k := 126) (by omega)
  rw [nearSum_iff hx hn]
  generalize round24 (2 ^ 149 + n) = s at *
  have hscreen := units?_add hy (units?_mul_neg_one hz) (by omega) (by omega)
  have hdiff : ((s : Int) + -n).toNat = s - n := by omega
  rw [hdiff] at hscreen
  rw [IsOne, hscreen, Option.some.injEq]
  constructor
  · intro hone
    by_contra hfar
    have := round24_lt_one (n := s - n) (by omega)
    omega
  · intro h
    rw [round24_eq_one (by omega) (by omega)]
    rfl

end

end PixelEffect.Ieee
