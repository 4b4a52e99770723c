import Mathlib
import PixelEffect.Number.Ieee

open Float.Model Float.Model.UnpackedFloat

namespace PixelEffect.Rounding

/-- The number nearest to `m / 2 ^ k`; of two equally near ones, the even one. -/
def nearest (m k : Nat) : Nat :=
  if 2 * (m % 2 ^ k) < 2 ^ k then m / 2 ^ k
  else if 2 * (m % 2 ^ k) = 2 ^ k then m / 2 ^ k + m / 2 ^ k % 2
  else m / 2 ^ k + 1

theorem div_le_nearest (m k : Nat) : m / 2 ^ k ≤ nearest m k := by
  unfold nearest
  split
  · exact Nat.le_refl _
  · split
    · exact Nat.le_add_right _ _
    · exact Nat.le_add_right _ _

theorem nearest_le (m k : Nat) : nearest m k ≤ m / 2 ^ k + 1 := by
  unfold nearest
  split
  · exact Nat.le_add_right _ _
  · split
    · omega
    · exact Nat.le_refl _

/-- Rounding does not cross a power of two from below. -/
theorem nearest_le_of_lt {m k b : Nat} (h : m < 2 ^ (k + b)) : nearest m k ≤ 2 ^ b := by
  have hdiv : m / 2 ^ k < 2 ^ b := by
    rw [Nat.div_lt_iff_lt_mul (Nat.two_pow_pos k), ← Nat.pow_add, Nat.add_comm]
    exact h
  have := nearest_le m k
  omega

/-- Nothing is lost in common factors of two. -/
theorem nearest_mul_pow (m j k : Nat) : nearest (m * 2 ^ j) (k + j) = nearest m k := by
  have hpow : 0 < 2 ^ j := Nat.two_pow_pos j
  unfold nearest
  rw [Nat.pow_add, Nat.mul_mod_mul_right, Nat.mul_div_mul_right _ _ hpow, ← Nat.mul_assoc]
  simp only [Nat.mul_lt_mul_right hpow, Nat.mul_right_cancel_iff hpow]

/-- A multiple of the power of two is rounded to itself. -/
theorem nearest_mul_pow_self (m k : Nat) : nearest (m * 2 ^ k) k = m := by
  have := nearest_mul_pow m k 0
  rw [Nat.zero_add] at this
  rw [this]
  simp [nearest, Nat.mod_one]

/-- The error of rounding to nearest is half a unit at most. -/
theorem nearest_error (m k : Nat) :
    2 * (nearest m k * 2 ^ k) ≤ 2 * m + 2 ^ k ∧ 2 * m ≤ 2 * (nearest m k * 2 ^ k) + 2 ^ k := by
  have hdiv : 2 ^ k * (m / 2 ^ k) + m % 2 ^ k = m := Nat.div_add_mod m (2 ^ k)
  have hlt : m % 2 ^ k < 2 ^ k := Nat.mod_lt _ (Nat.two_pow_pos k)
  rw [Nat.mul_comm] at hdiv
  unfold nearest
  split
  · omega
  · split
    · rcases Nat.mod_two_eq_zero_or_one (m / 2 ^ k) with h | h <;> rw [h, Nat.add_mul] <;> omega
    · rw [Nat.add_mul]
      omega

/-- After at least one shift the round bit is the highest one that was dropped, and the sticky bit
stands for the others. -/
theorem shiftRight_succ (m k : Nat) :
    (⟨m, false, false⟩ : ExtendedMantissa) >>> (k + 1) =
      ⟨m / 2 ^ (k + 1), m / 2 ^ k % 2 != 0, m % 2 ^ k != 0⟩ := by
  induction k with
  | zero => simp [HShiftRight.hShiftRight, Nat.repeat, ExtendedMantissa.shiftRightOne, Nat.mod_one]
  | succ k ih =>
    have hstep : (⟨m, false, false⟩ : ExtendedMantissa) >>> (k + 1 + 1) =
        ((⟨m, false, false⟩ : ExtendedMantissa) >>> (k + 1)).shiftRightOne := rfl
    have hmod : m % 2 ^ (k + 1) = m % 2 ^ k + 2 ^ k * (m / 2 ^ k % 2) := Nat.mod_pow_succ
    have hpow : 0 < 2 ^ k := Nat.two_pow_pos k
    have hsticky : (m / 2 ^ k % 2 != 0 || m % 2 ^ k != 0) = (m % 2 ^ (k + 1) != 0) := by
      rw [Bool.eq_iff_iff]
      simp only [Bool.or_eq_true, bne_iff_ne, hmod, ne_eq, Nat.add_eq_zero_iff, Nat.mul_eq_zero]
      omega
    rw [hstep, ih, ExtendedMantissa.shiftRightOne]
    simp only [Nat.div_div_eq_div_mul, ← Nat.pow_succ, hsticky]

theorem roundedMantissa_mk (m : Nat) (round sticky : Bool) :
    (⟨m, round, sticky⟩ : ExtendedMantissa).roundedMantissa =
      if round then (if sticky then m + 1 else m + m % 2) else m := by
  cases round <;> cases sticky <;> rfl

/-- Shifting and looking at the dropped bits rounds to the nearest quotient. -/
theorem roundedMantissa_shiftRight (m k : Nat) :
    ((⟨m, false, false⟩ : ExtendedMantissa) >>> k).roundedMantissa = nearest m k := by
  cases k with
  | zero =>
    have hshift : (⟨m, false, false⟩ : ExtendedMantissa) >>> 0 = ⟨m, false, false⟩ := rfl
    rw [hshift, roundedMantissa_mk]
    simp [nearest, Nat.mod_one]
  | succ k =>
    have hmod : m % 2 ^ (k + 1) = m % 2 ^ k + 2 ^ k * (m / 2 ^ k % 2) := Nat.mod_pow_succ
    have hlt : m % 2 ^ k < 2 ^ k := Nat.mod_lt _ (Nat.two_pow_pos k)
    rw [shiftRight_succ, roundedMantissa_mk]
    unfold nearest
    rw [hmod, Nat.pow_succ]
    -- The highest dropped bit and the others decide on which side of the middle they are.
    rcases Nat.mod_two_eq_zero_or_one (m / 2 ^ k) with hround | hround <;> rw [hround]
    · rw [if_neg (by decide), if_pos (by omega)]
    · rw [if_pos (by decide)]
      by_cases hsticky : m % 2 ^ k = 0
      · rw [if_neg (by simp [hsticky]), if_neg (by omega), if_pos (by omega)]
      · rw [if_pos (by simp [hsticky]), if_neg (by omega), if_neg (by omega)]

/-- The exponent of the last bit that single precision keeps of a mantissa. -/
theorem targetExponent_eq (m : Nat) (e : Int) :
    Format.binary32.targetExponent (totalExponent m e) = max (m.log2 + e - 23) (-149) := by
  simp only [Format.targetExponent, totalExponent, Format.mantissaBits, Format.minExponent]
  omega

theorem shiftToTargetExponent_eq (m : Nat) (e : Int) {target : Int} {k : Nat}
    (htarget : Format.binary32.targetExponent (totalExponent m e) = target)
    (hk : (target - e).toNat = k) :
    shiftToTargetExponent Format.binary32 m e .exact =
      ((⟨m, false, false⟩ : ExtendedMantissa) >>> k, e + k) := by
  subst htarget hk
  rfl

/-- A number with a mantissa that may be zero. -/
def finiteOrZero (s : Sign) (m : Nat) (e : Int) : UnpackedFloat :=
  if h : m = 0 then .zero s else .finite s m e (Nat.pos_of_ne_zero h)

/-- A mantissa that was rounded up to 25 bits loses its last one, which is zero. -/
theorem shiftToTargetExponent_nearest {q : Nat} {t : Int} (hq : q ≤ 2 ^ 24) (ht : -149 ≤ t) :
    shiftToTargetExponent Format.binary32 q t .exact =
      if q = 2 ^ 24 then (⟨2 ^ 23, false, false⟩, t + 1) else (⟨q, false, false⟩, t) := by
  split
  · rename_i hmax
    subst hmax
    have htarget : Format.binary32.targetExponent (totalExponent (2 ^ 24) t) = t + 1 := by
      rw [targetExponent_eq, Nat.log2_two_pow]
      omega
    rw [shiftToTargetExponent_eq _ _ htarget (k := 1) (by omega)]
    rfl
  · have hlog : q.log2 ≤ 23 := by
      by_cases hzero : q = 0
      · subst hzero
        decide
      · have := (Nat.log2_lt hzero (k := 24)).mpr (by omega)
        omega
    rw [shiftToTargetExponent_eq _ _ rfl (k := 0) (by rw [targetExponent_eq]; omega)]
    simp only [Int.natCast_zero, Int.add_zero]
    rfl

/-- An exact mantissa is rounded to nearest, with a carry into the exponent. -/
theorem roundWithAccuracy_exact (s : Sign) {m : Nat} {e t : Int} {k : Nat}
    (ht : Format.binary32.targetExponent (totalExponent m e) = t) (hk : e + k = t) :
    roundWithAccuracy Format.binary32 s m e .exact =
      if nearest m k = 2 ^ 24 then finiteOrZero s (2 ^ 23) (t + 1)
      else finiteOrZero s (nearest m k) t := by
  have hlt : m < 2 ^ (k + 24) := by
    rw [targetExponent_eq] at ht
    calc m < 2 ^ (m.log2 + 1) := Nat.lt_log2_self
      _ ≤ 2 ^ (k + 24) := Nat.pow_le_pow_right (by decide) (by omega)
  have hle : nearest m k ≤ 2 ^ 24 := nearest_le_of_lt hlt
  have hmin : -149 ≤ t := by
    rw [targetExponent_eq] at ht
    omega
  unfold roundWithAccuracy
  rw [shiftToTargetExponent_eq m e ht (k := k) (by omega)]
  simp only [roundedMantissa_shiftRight, hk, shiftToTargetExponent_nearest hle hmin]
  split <;> rfl

/-- The bits of a natural number that single precision drops. -/
def dropped (n : Nat) : Nat := n.log2 - 23

/-- The natural number of at most 24 significant bits that is nearest to another one. -/
def round24 (n : Nat) : Nat := nearest n (dropped n) * 2 ^ dropped n

theorem log2_mul_two_pow {m : Nat} (hm : m ≠ 0) (j : Nat) : (m * 2 ^ j).log2 = m.log2 + j := by
  have hpow : 0 < 2 ^ j := Nat.two_pow_pos j
  rw [Nat.log2_eq_iff (Nat.mul_ne_zero hm hpow.ne'), Nat.add_right_comm, Nat.pow_add, Nat.pow_add]
  exact ⟨Nat.mul_le_mul_right _ (Nat.log2_self_le hm),
    (Nat.mul_lt_mul_right hpow).mpr Nat.lt_log2_self⟩

/-- How many bits of a multiple are dropped depends on the multiple only, however it is split. -/
theorem targetExponent_units {m : Nat} (hm : m ≠ 0) (j : Nat) :
    Format.binary32.targetExponent (totalExponent m (j - 149)) = dropped (m * 2 ^ j) - 149 := by
  rw [targetExponent_eq, dropped, log2_mul_two_pow hm]
  omega

theorem decreaseExponent_eq (m : Nat) (e target : Int) :
    decreaseExponent m e target =
      (m * 2 ^ (e - target).toNat, e - (e - target).toNat) := by
  simp only [decreaseExponent, Nat.shiftLeft_eq]

/-- Rounding sees a mantissa and an exponent as a multiple of the smallest positive number. -/
theorem round_eq (s : Sign) {m : Nat} (hm : m ≠ 0) (j : Nat) :
    UnpackedFloat.round Format.binary32 s m (j - 149) =
      if nearest (m * 2 ^ j) (dropped (m * 2 ^ j)) = 2 ^ 24 then
        finiteOrZero s (2 ^ 23) (dropped (m * 2 ^ j) - 149 + 1)
      else
        finiteOrZero s (nearest (m * 2 ^ j) (dropped (m * 2 ^ j))) (dropped (m * 2 ^ j) - 149) := by
  generalize ht : dropped (m * 2 ^ j) = t
  have hexp : ((j : Int) - 149 - (t - 149)).toNat = j - t := by omega
  have hj : ((j : Int) - 149) - ((j - t : Nat) : Int) = ((min j t : Nat) : Int) - 149 := by omega
  have hunits : m * 2 ^ (j - t) * 2 ^ (min j t) = m * 2 ^ j := by
    rw [Nat.mul_assoc, ← Nat.pow_add]
    congr 2
    omega
  have hne : m * 2 ^ (j - t) ≠ 0 := Nat.mul_ne_zero hm (Nat.two_pow_pos _).ne'
  have hnearest : nearest (m * 2 ^ (j - t)) (t - min j t) = nearest (m * 2 ^ j) t := by
    rw [← nearest_mul_pow _ (min j t), hunits, Nat.sub_add_cancel (Nat.min_le_right j t)]
  unfold UnpackedFloat.round
  simp only [targetExponent_units hm, decreaseExponent_eq, ht, hexp, hj]
  rw [roundWithAccuracy_exact s (targetExponent_units hne _) (k := t - min j t), hunits, ht,
    hnearest]
  rw [hunits, ht]
  omega

/-- What is left of a number that needs rounding has 24 bits, or just one more. -/
theorem round24_bounds {n : Nat} (hn : n ≠ 0) :
    nearest n (dropped n) ≤ 2 ^ 24 ∧ (dropped n ≠ 0 → 2 ^ 23 ≤ nearest n (dropped n)) := by
  have hlt : n < 2 ^ (dropped n + 24) := by
    calc n < 2 ^ (n.log2 + 1) := Nat.lt_log2_self
      _ ≤ 2 ^ (dropped n + 24) := Nat.pow_le_pow_right (by decide) (by unfold dropped; omega)
  refine ⟨nearest_le_of_lt hlt, fun hdropped => le_trans ?_ (div_le_nearest n (dropped n))⟩
  have hlog : 23 + dropped n = n.log2 := by
    unfold dropped at *
    omega
  rw [Nat.le_div_iff_mul_le (Nat.two_pow_pos _), ← Nat.pow_add, hlog]
  exact Nat.log2_self_le hn

/-- A number with 24 significant bits at most needs no rounding. -/
theorem round24_mul_pow {m j : Nat} (hlt : m < 2 ^ 24) (hnormal : j ≠ 0 → 2 ^ 23 ≤ m) :
    round24 (m * 2 ^ j) = m * 2 ^ j := by
  by_cases hm : m = 0
  · subst hm
    simp [round24, nearest]
  · have hlog : m.log2 < 24 := (Nat.log2_lt hm).mpr hlt
    have hdropped : dropped (m * 2 ^ j) = j := by
      unfold dropped
      rw [log2_mul_two_pow hm]
      by_cases hj : j = 0
      · omega
      · have := (Nat.le_log2 hm).mpr (hnormal hj)
        omega
    unfold round24
    rw [hdropped, nearest_mul_pow_self]

/-- The error of rounding is at most half of the last bit that is kept. -/
theorem round24_error {n k : Nat} (h : n ≤ 2 ^ (k + 24)) :
    2 * round24 n ≤ 2 * n + 2 ^ k ∧ 2 * n ≤ 2 * round24 n + 2 ^ k := by
  rcases Nat.lt_or_eq_of_le h with hlt | heq
  · have hdropped : dropped n ≤ k := by
      unfold dropped
      by_cases hn : n = 0
      · subst hn
        simp
      · have := (Nat.log2_lt hn).mpr hlt
        omega
    have hpow : 2 ^ dropped n ≤ 2 ^ k := Nat.pow_le_pow_right (by decide) hdropped
    have herror := nearest_error n (dropped n)
    unfold round24
    omega
  · have hexact : round24 n = n := by
      have hn : n = 2 ^ 23 * 2 ^ (k + 1) := by
        rw [heq, ← Nat.pow_add]
        congr 1
        omega
      rw [hn]
      exact round24_mul_pow (by decide) fun _ => Nat.le_refl _
    have hpow : 0 < 2 ^ k := Nat.two_pow_pos k
    omega

/-- Rounding does not cross a power of two from above. -/
theorem le_round24 {n k : Nat} (hk : 23 < k) (h : 2 ^ k ≤ n) : 2 ^ k ≤ round24 n := by
  have hn : n ≠ 0 := by
    have := Nat.two_pow_pos k
    omega
  have hlog : k ≤ n.log2 := (Nat.le_log2 hn).mpr h
  have hdropped : 23 + dropped n = n.log2 := by
    unfold dropped
    omega
  calc 2 ^ k ≤ 2 ^ (23 + dropped n) := Nat.pow_le_pow_right (by decide) (by omega)
    _ = 2 ^ 23 * 2 ^ dropped n := Nat.pow_add ..
    _ ≤ round24 n := Nat.mul_le_mul_right _ ((round24_bounds hn).2 (by omega))

/-- What is rounded to one: the numbers that are too low by at most a quarter of the last bit of
one, or too high by at most half of it. -/
theorem round24_eq_one {n : Nat} (hlow : 2 ^ 149 ≤ n + 2 ^ 124) (hhigh : n ≤ 2 ^ 149 + 2 ^ 125) :
    round24 n = 2 ^ 149 := by
  have hn : n ≠ 0 := by omega
  by_cases habove : 2 ^ 149 ≤ n
  · have hlog : n.log2 = 149 := (Nat.log2_eq_iff hn).mpr ⟨habove, by omega⟩
    have hdropped : dropped n = 126 := by
      unfold dropped
      omega
    unfold round24 nearest
    rw [hdropped]
    split
    · omega
    · split <;> omega
  · have hlog : n.log2 = 148 := (Nat.log2_eq_iff hn).mpr ⟨by omega, by omega⟩
    have hdropped : dropped n = 125 := by
      unfold dropped
      omega
    unfold round24 nearest
    rw [hdropped]
    split
    · omega
    · split <;> omega

/-- Numbers that are too low by more than a quarter of the last bit of one stay below one. -/
theorem round24_lt_one {n : Nat} (h : n + 2 ^ 124 < 2 ^ 149) : round24 n < 2 ^ 149 := by
  by_cases hn : n < 2 ^ 148
  · have := round24_error (n := n) (k := 125) (by omega)
    omega
  · have hlog : n.log2 = 148 := (Nat.log2_eq_iff (by omega)).mpr ⟨by omega, by omega⟩
    have hdropped : dropped n = 125 := by
      unfold dropped
      omega
    unfold round24 nearest
    rw [hdropped]
    split
    · omega
    · split <;> omega

end PixelEffect.Rounding
