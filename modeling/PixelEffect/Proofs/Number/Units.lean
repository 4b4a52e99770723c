import PixelEffect.Proofs.Number.Rounding

open Float.Model Float.Model.UnpackedFloat

namespace PixelEffect.Rounding

/-- The floats that single precision stores. -/
def Stored : UnpackedFloat → Prop
  | .finite _ m e _ => m < 2 ^ 24 ∧ -149 ≤ e ∧ e ≤ 104 ∧ (2 ^ 23 ≤ m ∨ e = -149)
  | _ => True

/-- The value of a float as a multiple of `2 ^ -149`, the smallest positive number. -/
def units? : UnpackedFloat → Option Int
  | .finite s m e _ => some (s.apply (m * 2 ^ (e + 149).toNat))
  | .zero _ => some 0
  | .infinity _ | .notANumber => none

/-- Mantissas of 24 bits with exponents in range are stored as they are. -/
theorem stored_finiteOrZero (s : Sign) {m i : Nat} (hlt : m < 2 ^ 24) (hi : i ≤ 253)
    (hnormal : i ≠ 0 → 2 ^ 23 ≤ m) : Stored (finiteOrZero s m (i - 149)) := by
  unfold finiteOrZero
  split
  · trivial
  · refine ⟨hlt, by omega, by omega, ?_⟩
    by_cases hzero : i = 0
    · right
      omega
    · left
      exact hnormal hzero

/-- The multiple that a mantissa and an exponent stand for. -/
theorem units?_finiteOrZero (s : Sign) (m i : Nat) :
    units? (finiteOrZero s m (i - 149)) = some (s.apply (m * 2 ^ i : Nat)) := by
  unfold finiteOrZero
  split
  · rename_i hzero
    subst hzero
    cases s <;> simp [units?, Sign.apply]
  · simp [units?]

/-- Rounding keeps 24 bits of the multiple. -/
theorem round_spec (s : Sign) {m j : Nat} (hm : m ≠ 0) (hlt : m * 2 ^ j < 2 ^ 200) :
    Stored (UnpackedFloat.round Format.binary32 s m (j - 149)) ∧
      units? (UnpackedFloat.round Format.binary32 s m (j - 149)) =
        some (s.apply (round24 (m * 2 ^ j) : Nat)) := by
  have hne : m * 2 ^ j ≠ 0 := Nat.mul_ne_zero hm (Nat.two_pow_pos _).ne'
  rw [round_eq s hm]
  unfold round24
  generalize m * 2 ^ j = n at *
  have hlog : n.log2 < 200 := (Nat.log2_lt hne).mpr hlt
  have hdropped : dropped n ≤ 176 := by
    unfold dropped
    omega
  obtain ⟨hle, hnormal⟩ := round24_bounds hne
  split
  · rename_i hmax
    have hnext : (dropped n - 149 + 1 : Int) = ((dropped n + 1 : Nat) : Int) - 149 := by omega
    rw [hnext, hmax]
    refine ⟨stored_finiteOrZero s (by decide) (by omega) fun _ => Nat.le_refl _, ?_⟩
    have hpow : 2 ^ 23 * 2 ^ (dropped n + 1) = 2 ^ 24 * 2 ^ dropped n := by ring
    rw [units?_finiteOrZero, hpow]
  · exact ⟨stored_finiteOrZero s (by omega) (by omega) hnormal, units?_finiteOrZero ..⟩

theorem toNat_one_append (m : BitVec 23) : (1#1 ++ m).toNat = 2 ^ 23 + m.toNat := by
  rw [BitVec.toNat_append, ← Nat.shiftLeft_add_eq_or_of_lt m.isLt]
  rfl

/-- Whatever the bits are, they stand for a stored number. -/
theorem stored_unpack (x : Single) : Stored x.unpack := by
  have hmantissa : (unpackMantissa x.bits).toNat < 2 ^ 23 := (unpackMantissa x.bits).isLt
  have hexponent : (unpackExponent x.bits).toNat < 2 ^ 8 := (unpackExponent x.bits).isLt
  unfold Ieee.unpack UnpackedFloat.unpack
  simp only
  split
  · split <;> trivial
  · rename_i hmax
    have hne : (unpackExponent x.bits).toNat ≠ 255 := by
      intro h
      exact hmax (BitVec.eq_of_toNat_eq h)
    split
    · rename_i hzero
      split
      · trivial
      · refine ⟨by omega, ?_, ?_, .inr ?_⟩ <;> simp [hzero, Format.exponentBias]
    · rename_i hpos
      have hpos : (unpackExponent x.bits).toNat ≠ 0 := by
        intro h
        exact hpos (BitVec.eq_of_toNat_eq h)
      have hnormal : (1#1 ++ unpackMantissa x.bits).toNat =
          2 ^ 23 + (unpackMantissa x.bits).toNat := toNat_one_append _
      have hbias : (Format.binary32.exponentBias : Int) = 127 := rfl
      refine ⟨?_, ?_, ?_, ?_⟩
      · omega
      · simp only [hbias]
        omega
      · simp only [hbias]
        omega
      · omega

/-- A mantissa with its highest bit survives being packed. -/
theorem unpack_normal (s : Sign) {b m : Nat} (hb : b ≠ 0) (hb' : b < 255) (hm : 2 ^ 23 ≤ m)
    (hm' : m < 2 ^ 24) (hpos : 0 < m) :
    UnpackedFloat.unpack Format.binary32
      (packComponents Format.binary32 s (BitVec.ofNat 8 b) (BitVec.ofNat 23 m)) =
        .finite s m (b - 150) hpos := by
  have hexponent : (BitVec.ofNat 8 b).toNat = b := Nat.mod_eq_of_lt (by omega)
  have hmax : BitVec.ofNat 8 b ≠ -1#8 := by
    intro h
    have := congrArg BitVec.toNat h
    rw [hexponent] at this
    simp at this
    omega
  have hzero : BitVec.ofNat 8 b ≠ 0#8 := by
    intro h
    have := congrArg BitVec.toNat h
    rw [hexponent] at this
    exact hb this
  have hmantissa : (1#1 ++ BitVec.ofNat 23 m).toNat = m := by
    rw [toNat_one_append, BitVec.toNat_ofNat]
    omega
  unfold UnpackedFloat.unpack
  simp only [unpackExponent_packComponents, unpackMantissa_packComponents,
    unpackSign_packComponents, Sign.ofBitVec_toBitVec]
  rw [if_neg hmax, if_neg hzero]
  congr 1
  rw [hexponent]
  rfl

/-- A mantissa below the highest bit survives being packed with the lowest exponent. -/
theorem unpack_subnormal (s : Sign) {m : Nat} (hm : m < 2 ^ 23) (hpos : 0 < m) :
    UnpackedFloat.unpack Format.binary32
      (packComponents Format.binary32 s 0 (BitVec.ofNat 23 m)) = .finite s m (-149) hpos := by
  have hmantissa : (BitVec.ofNat 23 m).toNat = m := Nat.mod_eq_of_lt hm
  have hne : BitVec.ofNat 23 m ≠ 0#23 := by
    intro h
    have := congrArg BitVec.toNat h
    rw [hmantissa] at this
    exact hpos.ne' this
  unfold UnpackedFloat.unpack
  simp only [unpackExponent_packComponents, unpackMantissa_packComponents,
    unpackSign_packComponents, Sign.ofBitVec_toBitVec]
  rw [if_neg (by decide), if_pos (by decide), dif_neg hne]
  congr 1

/-- Stored finite numbers survive being packed. -/
theorem unpack_pack {u : UnpackedFloat} {z : Int} (hstored : Stored u) (hu : units? u = some z) :
    (Ieee.pack u : Single).unpack = u := by
  cases u with
  | infinity | notANumber => cases hu
  | zero s => exact unpack_packedZero
  | finite s m e hm =>
    obtain ⟨hlt, hmin, hmax, hnormal⟩ := hstored
    have hbias : (e + Format.binary32.exponentBias +
        Format.binary32.mantissaBitsWithoutImplicit).toNat = (e + 150).toNat := by
      simp only [Format.exponentBias]
      omega
    have hexponent : ((e + 150).toNat : Int) - 150 = e := by omega
    unfold Ieee.pack Ieee.unpack
    simp only [UnpackedFloat.pack, hbias]
    rw [if_neg (by omega)]
    split
    · rename_i hlog
      have hlog : m.log2 = 23 := by simpa [Format.mantissaBits] using hlog
      have hm' : 2 ^ 23 ≤ m := by
        rw [← hlog]
        exact Nat.log2_self_le hm.ne'
      rw [unpack_normal s (by omega) (by omega) hm' hlt hm, hexponent]
    · rename_i hlog
      have hlog : m.log2 ≠ 23 := by simpa [Format.mantissaBits] using hlog
      have hm' : m < 2 ^ 23 := by
        have := (Nat.log2_lt hm.ne' (k := 24)).mpr hlt
        exact (Nat.log2_lt hm.ne').mp (by omega)
      obtain rfl : e = -149 := by omega
      exact unpack_subnormal s hm' hm

theorem apply_ofNat (s : Sign) (n : Nat) (h : 0 ≤ s.apply n) : (s.apply n).toNat = n := by
  cases s with
  | positive => simp [Sign.apply]
  | negative =>
    simp only [Sign.apply] at h ⊢
    omega

/-- A stored number needs no rounding. -/
theorem round24_units {u : UnpackedFloat} {z : Int} (hstored : Stored u) (hu : units? u = some z)
    (hz : 0 ≤ z) : z = round24 z.toNat := by
  cases u with
  | infinity | notANumber => cases hu
  | zero s =>
    cases hu
    rfl
  | finite s m e hm =>
    obtain ⟨hlt, hmin, hmax, hnormal⟩ := hstored
    cases hu
    have hcast : (m * 2 ^ (e + 149).toNat : Int) = (m * 2 ^ (e + 149).toNat : Nat) := by
      push_cast
      rfl
    rw [hcast] at hz ⊢
    rw [apply_ofNat s _ hz, round24_mul_pow hlt (by omega)]
    cases s with
    | positive => rfl
    | negative =>
      simp only [Sign.apply] at hz ⊢
      omega

/-- A whole multiple is normalized to the nearest stored number. -/
theorem normalize_spec {z : Int} {j : Nat} (hz : 0 ≤ z) (hlt : z.toNat * 2 ^ j < 2 ^ 200) :
    Stored (UnpackedFloat.normalize Format.binary32 z (j - 149) .positive) ∧
      units? (UnpackedFloat.normalize Format.binary32 z (j - 149) .positive) =
        some (round24 (z.toNat * 2 ^ j) : Int) := by
  unfold UnpackedFloat.normalize
  rcases hz.eq_or_lt with hzero | hpos
  · subst hzero
    rw [show compare (0 : Int) 0 = .eq from rfl]
    simp [Stored, units?, round24, nearest]
  · have hcompare : compare z 0 = .gt := compare_gt_iff_gt.mpr hpos
    rw [hcompare]
    exact round_spec .positive (by omega) hlt

/-- Aligning exponents does not change the value. -/
theorem apply_decreaseExponent (s : Sign) (m : Nat) {e t : Int} (ht : -149 ≤ t) (hle : t ≤ e) :
    s.apply (decreaseExponent m e t).1 * 2 ^ (t + 149).toNat =
      s.apply (m * 2 ^ (e + 149).toNat) := by
  have hpow : (e - t).toNat + (t + 149).toNat = (e + 149).toNat := by omega
  rw [decreaseExponent_eq, ← hpow, pow_add]
  cases s <;> simp only [Sign.apply] <;> push_cast <;> ring

/-- The sum of two finite numbers is exact before it is rounded. -/
theorem add_finite_spec {s s' : Sign} {m m' : Nat} {e e' : Int} {hm : 0 < m} {hm' : 0 < m'}
    {a b : Int} (he : -149 ≤ e) (he' : -149 ≤ e') (ha : units? (.finite s m e hm) = some a)
    (hb : units? (.finite s' m' e' hm') = some b) (hpos : 0 ≤ a + b) (hlt : a + b < 2 ^ 200) :
    Stored (UnpackedFloat.add Format.binary32 (.finite s m e hm) (.finite s' m' e' hm')) ∧
      units? (UnpackedFloat.add Format.binary32 (.finite s m e hm) (.finite s' m' e' hm')) =
        some (round24 (a + b).toNat : Int) := by
  cases ha
  cases hb
  have hsum := apply_decreaseExponent s m (le_min he he') (min_le_left e e')
  have hsum' := apply_decreaseExponent s' m' (le_min he he') (min_le_right e e')
  rw [← hsum, ← hsum', ← add_mul] at hpos hlt ⊢
  unfold UnpackedFloat.add
  simp only
  generalize s.apply (decreaseExponent m e (min e e')).1 +
    s'.apply (decreaseExponent m' e' (min e e')).1 = z at *
  have hexp : min e e' = ((min e e' + 149).toNat : Int) - 149 := by omega
  generalize (min e e' + 149).toNat = j at *
  have hz : 0 ≤ z := by
    by_contra hneg
    have : z * 2 ^ j < 0 := Int.mul_neg_of_neg_of_pos (by omega) (by positivity)
    omega
  have htoNat : (z * 2 ^ j).toNat = z.toNat * 2 ^ j := by
    rw [Int.toNat_mul hz (by positivity), ← Nat.cast_ofNat, ← Nat.cast_pow, Int.toNat_natCast]
  rw [hexp, htoNat]
  apply normalize_spec hz
  omega

/-- A sum that is not negative is the exact one, rounded. -/
theorem add_spec {u v : UnpackedFloat} {a b : Int} (hu : Stored u) (hv : Stored v)
    (ha : units? u = some a) (hb : units? v = some b) (hpos : 0 ≤ a + b)
    (hlt : a + b < 2 ^ 200) :
    Stored (UnpackedFloat.add Format.binary32 u v) ∧
      units? (UnpackedFloat.add Format.binary32 u v) = some (round24 (a + b).toNat : Int) := by
  cases u with
  | infinity | notANumber => cases ha
  | zero s =>
    cases ha
    cases v with
    | infinity | notANumber => cases hb
    | zero s' =>
      cases hb
      simp only [UnpackedFloat.add]
      split <;> exact ⟨trivial, rfl⟩
    | finite s' m' e' hm' =>
      rw [zero_add] at hpos ⊢
      refine ⟨hv, ?_⟩
      rw [← round24_units hv hb hpos]
      exact hb
  | finite s m e hm =>
    cases v with
    | infinity | notANumber => cases hb
    | zero s' =>
      cases hb
      rw [add_zero] at hpos ⊢
      refine ⟨hu, ?_⟩
      rw [← round24_units hu ha hpos]
      exact ha
    | finite s' m' e' hm' => exact add_finite_spec hu.2.1 hv.2.1 ha hb hpos hlt

/-- Subtracting is adding the opposite, also for zeros and infinities. -/
theorem sub_eq_add_neg (u v : UnpackedFloat) :
    UnpackedFloat.sub Format.binary32 u v = UnpackedFloat.add Format.binary32 u v.neg := by
  cases u with
  | finite s m e hm =>
    cases v with
    | finite s' m' e' hm' =>
      have happly : ∀ n : Int, -s'.apply n = (-s').apply n := by
        intro n
        cases s' with
        | positive => rfl
        | negative => exact neg_neg n
      simp only [UnpackedFloat.sub, UnpackedFloat.add, UnpackedFloat.neg, Int.sub_eq_add_neg,
        happly]
    | _ => rfl
  | _ => cases v <;> rfl

/-- The opposite of a stored number is stored and has the opposite value. -/
theorem neg_spec {u : UnpackedFloat} {z : Int} (hstored : Stored u) (hu : units? u = some z) :
    Stored u.neg ∧ units? u.neg = some (-z) := by
  cases u with
  | infinity | notANumber => cases hu
  | zero s =>
    cases hu
    exact ⟨trivial, rfl⟩
  | finite s m e hm =>
    cases hu
    refine ⟨hstored, ?_⟩
    cases s with
    | positive => rfl
    | negative => exact congrArg some (neg_neg _).symm

/-- A mantissa with zeros behind it is rounded to itself. -/
theorem roundWithAccuracy_mul_pow (s : Sign) {s' : Sign} {m : Nat} {e : Int} (hm : 0 < m)
    (hstored : Stored (.finite s' m e hm)) :
    roundWithAccuracy Format.binary32 s (m * 2 ^ 23) (e - 23) .exact = .finite s m e hm := by
  obtain ⟨hlt, hmin, hmax, hnormal⟩ := hstored
  have hlog : m.log2 < 24 := (Nat.log2_lt hm.ne').mpr hlt
  have htarget :
      Format.binary32.targetExponent (totalExponent (m * 2 ^ 23) (e - 23)) = e := by
    rw [targetExponent_eq, log2_mul_two_pow hm.ne']
    rcases hnormal with hnormal | hnormal
    · have := (Nat.le_log2 hm.ne').mpr hnormal
      omega
    · omega
  rw [roundWithAccuracy_exact s htarget (k := 23) (by omega), nearest_mul_pow_self,
    if_neg (by omega), finiteOrZero, dif_neg hm.ne']

theorem mul_comm (u v : UnpackedFloat) :
    UnpackedFloat.mul Format.binary32 u v = UnpackedFloat.mul Format.binary32 v u := by
  have hsign : ∀ s s' : Sign, s * s' = s' * s := by
    intro s s'
    cases s <;> cases s' <;> rfl
  cases u <;> cases v <;> simp only [UnpackedFloat.mul, hsign, Nat.mul_comm, Int.add_comm]

/-- One and minus one. -/
def signedOne (s : Sign) : UnpackedFloat := .finite s (2 ^ 23) (-23) (by decide)

/-- Numerical equality with one leaves no other bits. -/
theorem eq_signedOne_of_beq {u : UnpackedFloat} {s : Sign} (h : u.beq (signedOne s)) :
    u = signedOne s := by
  rcases (beq_iff_ne_notANumber_and_eq _ _).mp h with ⟨_, _, heq | ⟨_, hzero⟩ | ⟨_, hzero⟩⟩
  · exact heq
  · cases hzero
  · cases hzero

/-- A product with one or minus one is exact. -/
theorem mul_one_spec {u : UnpackedFloat} (s : Sign) {z : Int} (hu : Stored u)
    (hz : units? u = some z) :
    Stored (UnpackedFloat.mul Format.binary32 u (signedOne s)) ∧
      units? (UnpackedFloat.mul Format.binary32 u (signedOne s)) =
        some (s.apply z) := by
  cases u with
  | infinity | notANumber => cases hz
  | zero s' =>
    cases hz
    refine ⟨trivial, ?_⟩
    cases s <;> rfl
  | finite s' m e hm =>
    cases hz
    simp only [signedOne, UnpackedFloat.mul, ← Int.sub_eq_add_neg]
    rw [roundWithAccuracy_mul_pow _ hm hu]
    refine ⟨hu, ?_⟩
    cases s with
    | positive => cases s' <;> rfl
    | negative =>
      cases s' with
      | positive => rfl
      | negative => exact congrArg some (neg_neg _).symm

theorem eq_zero_of_units {u : UnpackedFloat} (h : units? u = some 0) : ∃ s, u = .zero s := by
  cases u with
  | infinity | notANumber => cases h
  | zero s => exact ⟨s, rfl⟩
  | finite s m e hm =>
    have hpos : 0 < (m : Int) * 2 ^ (e + 149).toNat := by positivity
    simp only [units?, Option.some.injEq] at h
    cases s with
    | positive => exact absurd h hpos.ne'
    | negative => exact absurd (neg_eq_zero.mp h) hpos.ne'

/-- A product with zero is zero. -/
theorem mul_zero_spec {u : UnpackedFloat} {s : Sign} {z : Int} (hz : units? u = some z) :
    Stored (UnpackedFloat.mul Format.binary32 u (.zero s)) ∧
      units? (UnpackedFloat.mul Format.binary32 u (.zero s)) = some 0 := by
  cases u with
  | infinity | notANumber => cases hz
  | zero | finite => exact ⟨trivial, rfl⟩

/-- Comparing exponents first and mantissas then compares the multiples. -/
theorem compare_then_one {m : Nat} {e : Int} (hlt : m < 2 ^ 24) (hnormal : 2 ^ 23 ≤ m ∨ e = -149) :
    (compare e (-23)).then (compare m (2 ^ 23)) =
      compare ((m * 2 ^ (e + 149).toNat : Nat) : Int) (2 ^ 149) := by
  rcases lt_trichotomy e (-23) with he | rfl | he
  · have hbelow : m * 2 ^ (e + 149).toNat < 2 ^ 149 := by
      calc m * 2 ^ (e + 149).toNat < 2 ^ 24 * 2 ^ (e + 149).toNat :=
            (Nat.mul_lt_mul_right (Nat.two_pow_pos _)).mpr hlt
        _ ≤ 2 ^ 24 * 2 ^ 125 :=
            Nat.mul_le_mul_left _ (Nat.pow_le_pow_right (by decide) (by omega))
        _ = 2 ^ 149 := rfl
    rw [compare_lt_iff_lt.mpr he, eq_comm]
    exact compare_lt_iff_lt.mpr (by omega)
  · have hexponent : ((-23 : Int) + 149).toNat = 126 := rfl
    rw [compare_eq_iff_eq.mpr (rfl : (-23 : Int) = -23), hexponent]
    rcases lt_trichotomy m (2 ^ 23) with hm | hm | hm
    · rw [compare_lt_iff_lt.mpr hm, compare_lt_iff_lt.mpr (by omega)]
      rfl
    · rw [compare_eq_iff_eq.mpr hm, compare_eq_iff_eq.mpr (by omega)]
      rfl
    · rw [compare_gt_iff_gt.mpr hm, compare_gt_iff_gt.mpr (by omega)]
      rfl
  · have habove : 2 ^ 149 < m * 2 ^ (e + 149).toNat := by
      calc 2 ^ 149 < 2 ^ 23 * 2 ^ 127 := by decide
        _ ≤ m * 2 ^ (e + 149).toNat :=
            Nat.mul_le_mul (hnormal.resolve_right (by omega))
              (Nat.pow_le_pow_right (by decide) (by omega))
    rw [compare_gt_iff_gt.mpr he, eq_comm]
    exact compare_gt_iff_gt.mpr (by omega)

/-- A stored number is above or below one exactly if its multiple is. -/
theorem compare_one {u : UnpackedFloat} {z : Int} (hu : Stored u) (hz : units? u = some z) :
    u.compare (signedOne .positive) = some (compare z (2 ^ 149)) := by
  cases u with
  | infinity | notANumber => cases hz
  | zero s =>
    cases hz
    rfl
  | finite s m e hm =>
    cases hz
    cases s with
    | negative =>
      have hneg : Sign.negative.apply (m * 2 ^ (e + 149).toNat) < 2 ^ 149 := by
        have : 0 ≤ (m : Int) * 2 ^ (e + 149).toNat := by positivity
        simp only [Sign.apply]
        omega
      rw [compare_lt_iff_lt.mpr hneg]
      rfl
    | positive =>
      have hcast : (m * 2 ^ (e + 149).toNat : Int) = (m * 2 ^ (e + 149).toNat : Nat) := by
        push_cast
        rfl
      simp only [signedOne, UnpackedFloat.compare, Sign.apply, hcast]
      rw [compare_then_one hu.1 hu.2.2.2]

end PixelEffect.Rounding

namespace PixelEffect.Ieee

open Rounding

/-- The value of a finite number as a multiple of `2 ^ -149`. -/
def units? (x : Single) : Option Int := Rounding.units? x.unpack

section

variable {x y : Single} {a b : Int}

/-- Only finite numbers have a value. -/
theorem isNaN_of_units (h : x.units? = some a) : x.isNaN = false := by
  unfold units? at h
  unfold isNaN
  cases hx : x.unpack with
  | notANumber =>
    rw [hx] at h
    cases h
  | _ => rfl

/-- An operation on two finite numbers yields what it does on their parts, if that is finite. -/
theorem units?_lift₂ (op : UnpackedFloat → UnpackedFloat → UnpackedFloat) {z : Int}
    (hx : x.units? = some a) (hy : y.units? = some b)
    (hop : Stored (op x.unpack y.unpack) ∧ Rounding.units? (op x.unpack y.unpack) = some z) :
    (lift₂ op x y).units? = some z := by
  unfold lift₂
  rw [isNaN_of_units hx, isNaN_of_units hy]
  simp only [Bool.false_eq_true, if_false, units?]
  rw [unpack_pack hop.1 hop.2]
  exact hop.2

/-- Sums are exact up to one rounding. -/
theorem units?_add (hx : x.units? = some a) (hy : y.units? = some b) (hpos : 0 ≤ a + b)
    (hlt : a + b < 2 ^ 200) : (x + y).units? = some (round24 (a + b).toNat : Int) :=
  units?_lift₂ _ hx hy (add_spec (stored_unpack x) (stored_unpack y) hx hy hpos hlt)

/-- Differences are exact up to one rounding. -/
theorem units?_sub (hx : x.units? = some a) (hy : y.units? = some b) (hpos : 0 ≤ a - b)
    (hlt : a - b < 2 ^ 200) : (x - y).units? = some (round24 (a - b).toNat : Int) := by
  obtain ⟨hneg, hunits⟩ := neg_spec (stored_unpack y) hy
  refine units?_lift₂ (UnpackedFloat.sub _) hx hy ?_
  rw [Rounding.sub_eq_add_neg, Int.sub_eq_add_neg]
  exact add_spec (stored_unpack x) hneg hx hunits hpos hlt

theorem unpack_one : (1 : Single).unpack = signedOne .positive := by
  rfl

end

end PixelEffect.Ieee
