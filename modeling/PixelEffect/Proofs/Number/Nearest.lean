import PixelEffect.Proofs.Number.Units

open Float.Model Float.Model.UnpackedFloat

namespace PixelEffect.Rounding

/-- The mantissa is the whole part of the number, and the two bits compare the rest with a half. -/
def Represents : ExtendedMantissa → ℚ → Prop
  | ⟨m, false, false⟩, x => x = m
  | ⟨m, false, true⟩, x => m < x ∧ x < m + 1 / 2
  | ⟨m, true, false⟩, x => x = m + 1 / 2
  | ⟨m, true, true⟩, x => m + 1 / 2 < x ∧ x < m + 1

/-- The number is at most a half away from the natural number, and less if that is odd. -/
structure RoundsTo (m : Nat) (x : ℚ) : Prop where
  low : (m : ℚ) - 1 / 2 ≤ x
  high : x ≤ m + 1 / 2
  odd : m % 2 = 1 → x ≠ m - 1 / 2 ∧ x ≠ m + 1 / 2

/-- The number is in the rounding interval of `m * 2 ^ e`, over `2 ^ e`. Below a power of two floats
are closer to each other, and so the interval ends sooner there. -/
structure Within (m : Nat) (e : Int) (x : ℚ) : Prop extends RoundsTo m x where
  belowPower : m = 2 ^ 23 → -149 < e → (m : ℚ) - 1 / 4 ≤ x

section

variable {em : ExtendedMantissa} {x : ℚ} {m : Nat}

/-- A cut mantissa is the whole part of the number. -/
theorem Represents.bounds (h : Represents em x) : (em.mantissa : ℚ) ≤ x ∧ x < em.mantissa + 1 := by
  obtain ⟨m, round, sticky⟩ := em
  cases round <;> cases sticky <;> simp only [Represents] at h ⊢ <;>
    exact ⟨by linarith, by linarith⟩

/-- The bit that is shifted out becomes the round bit. -/
theorem Represents.shiftRightOne (h : Represents em x) : Represents em.shiftRightOne (x / 2) := by
  obtain ⟨m, round, sticky⟩ := em
  have hm : (m : ℚ) = 2 * (m / 2 : Nat) + (m % 2 : Nat) := by
    exact_mod_cast (Nat.div_add_mod m 2).symm
  rcases Nat.mod_two_eq_zero_or_one m with hbit | hbit <;> rw [hbit] at hm <;> push_cast at hm <;>
    cases round <;> cases sticky <;>
    simp only [Represents, ExtendedMantissa.shiftRightOne, hbit, bne_self_eq_false, Bool.or_false,
      Bool.or_true, Nat.reduceBNe] at h ⊢ <;>
    first | linarith | exact ⟨by linarith, by linarith⟩

/-- Cutting off more bits divides the number by a power of two. -/
theorem Represents.shiftRight (h : Represents em x) (k : Nat) :
    Represents (em >>> k) (x / 2 ^ k) := by
  induction k with
  | zero =>
    rw [pow_zero, div_one]
    exact h
  | succ k ih =>
    have hstep : em >>> (k + 1) = (em >>> k).shiftRightOne := rfl
    rw [hstep, pow_succ, ← div_div]
    exact ih.shiftRightOne

/-- Rounding a cut mantissa rounds the number that it represents. -/
theorem Represents.roundedMantissa_eq (h : Represents em x) (hm : RoundsTo m x) :
    em.roundedMantissa = m := by
  obtain ⟨q, round, sticky⟩ := em
  obtain ⟨hlow, hhigh, hodd⟩ := hm
  have hbounds := h.bounds
  have hle : m ≤ q + 1 := by
    have : (m : ℚ) < (q + 1 : Nat) + 1 := by
      push_cast
      linarith
    have : m < q + 1 + 1 := by exact_mod_cast this
    omega
  have hge : q ≤ m := by
    have : (q : ℚ) < (m : Nat) + 1 := by linarith
    have : q < m + 1 := by exact_mod_cast this
    omega
  rw [roundedMantissa_mk]
  rcases Nat.eq_or_lt_of_le hge with rfl | hlt
  · -- Nothing is rounded up.
    cases round <;> cases sticky <;> simp only [Represents] at h
    · rfl
    · rfl
    · have heven : q % 2 = 0 := by
        by_contra hne
        exact (hodd (by omega)).2 h
      simp [heven]
    · linarith
  · obtain rfl : m = q + 1 := by omega
    push_cast at hlow hodd
    cases round <;> cases sticky <;> simp only [Represents] at h
    · linarith
    · linarith
    · have hq : q % 2 = 1 := by
        by_contra hne
        exact (hodd (by omega)).1 (by linarith)
      simp [hq]
    · rfl

/-- The whole part of a quotient, with the remainder compared to the divisor. -/
theorem represents_div (n : Nat) {d : Nat} (hd : 0 < d) :
    Represents (.ofMantissaAndAccuracy (n / d) (accuracyOfFraction (n % d) d)) (n / d) := by
  have hpos : (0 : ℚ) < d := by exact_mod_cast hd
  have hdiv : (n : ℚ) / d = (n / d : Nat) + (n % d : Nat) / d := by
    have hn : (n : ℚ) = d * (n / d : Nat) + (n % d : Nat) := by
      exact_mod_cast (Nat.div_add_mod n d).symm
    rw [eq_comm, ← mul_div_cancel_left₀ ((n / d : Nat) : ℚ) hpos.ne', ← add_div, ← hn]
  have hlt : ((n % d : Nat) : ℚ) / d < 1 := by
    rw [div_lt_one hpos]
    exact_mod_cast Nat.mod_lt n hd
  rw [hdiv, accuracyOfFraction]
  generalize n / d = q
  split
  · rename_i hzero
    simp [hzero, Represents, ExtendedMantissa.ofMantissaAndAccuracy]
  · rename_i hne
    have hrest : 0 < ((n % d : Nat) : ℚ) / d :=
      div_pos (by exact_mod_cast Nat.pos_of_ne_zero hne) hpos
    rcases lt_trichotomy (2 * (n % d)) d with hhalf | hhalf | hhalf
    · have hhalf' : ((n % d : Nat) : ℚ) / d < 1 / 2 := by
        rw [div_lt_div_iff₀ hpos two_pos, one_mul]
        exact_mod_cast (Nat.mul_comm 2 (n % d)) ▸ hhalf
      rw [compare_lt_iff_lt.mpr hhalf]
      exact ⟨by linarith, by linarith⟩
    · have hhalf' : ((n % d : Nat) : ℚ) / d = 1 / 2 := by
        rw [div_eq_div_iff hpos.ne' two_ne_zero, one_mul]
        exact_mod_cast (Nat.mul_comm 2 (n % d)) ▸ hhalf
      rw [compare_eq_iff_eq.mpr hhalf]
      exact congrArg _ hhalf'
    · have hhalf' : 1 / 2 < ((n % d : Nat) : ℚ) / d := by
        rw [div_lt_div_iff₀ two_pos hpos, one_mul]
        exact_mod_cast (Nat.mul_comm 2 (n % d)) ▸ hhalf
      rw [compare_gt_iff_gt.mpr hhalf]
      exact ⟨by linarith, by linarith⟩

end

section

variable {M m : Nat} {E e t : Int} {acc : Accuracy} {x : ℚ}

theorem mantissa_ofMantissaAndAccuracy (M : Nat) (acc : Accuracy) :
    (ExtendedMantissa.ofMantissaAndAccuracy M acc).mantissa = M := by
  unfold ExtendedMantissa.ofMantissaAndAccuracy
  split <;> rfl

/-- The number is below the power of two that its whole part asks for. -/
theorem lt_two_zpow (hx : Represents (.ofMantissaAndAccuracy M acc) (x / 2 ^ E)) :
    x < 2 ^ (M.log2 + 1 + E) := by
  have hlt : (M : ℚ) + 1 ≤ 2 ^ (M.log2 + 1) := by
    exact_mod_cast (Nat.lt_log2_self : M < 2 ^ (M.log2 + 1))
  have hbound := hx.bounds.2
  rw [mantissa_ofMantissaAndAccuracy, div_lt_iff₀ (by positivity)] at hbound
  have hexp : (2 : ℚ) ^ ((M.log2 : Int) + 1 + E) = 2 ^ (M.log2 + 1) * 2 ^ E := by
    rw [zpow_add₀ two_ne_zero]
    norm_cast
  rw [hexp]
  exact hbound.trans_le (mul_le_mul_of_nonneg_right hlt (by positivity))

/-- The number is not below the power of two of its highest bit. -/
theorem two_zpow_le (hM : M ≠ 0) (hx : Represents (.ofMantissaAndAccuracy M acc) (x / 2 ^ E)) :
    2 ^ (M.log2 + E) ≤ x := by
  have hle : (2 : ℚ) ^ M.log2 ≤ M := by exact_mod_cast Nat.log2_self_le hM
  have hbound := hx.bounds.1
  rw [mantissa_ofMantissaAndAccuracy, le_div_iff₀ (by positivity)] at hbound
  rw [zpow_add₀ two_ne_zero, zpow_natCast]
  exact (mul_le_mul_of_nonneg_right hle (by positivity)).trans hbound

/-- The exponent is that of the float, unless the number is just below a power of two. -/
theorem targetExponent_cases (hx : Represents (.ofMantissaAndAccuracy M acc) (x / 2 ^ E))
    (ht : Format.binary32.targetExponent (totalExponent M E) = t) (hE : E ≤ t) (hlt : m < 2 ^ 24)
    (hmin : -149 ≤ e) (hnormal : 2 ^ 23 ≤ m ∨ e = -149) (hwithin : Within m e (x / 2 ^ e)) :
    t = e ∨ (t = e - 1 ∧ m = 2 ^ 23 ∧ RoundsTo (2 ^ 24) (x / 2 ^ t)) := by
  rw [targetExponent_eq] at ht
  have hpow : (0 : ℚ) < 2 ^ e := by positivity
  have hupper : x < 2 ^ (24 + e) := by
    have hm : (m : ℚ) + 1 ≤ 2 ^ 24 := by exact_mod_cast hlt
    have hhigh := (div_le_iff₀ hpow).mp hwithin.high
    rw [zpow_add₀ two_ne_zero]
    refine hhigh.trans_lt (mul_lt_mul_of_pos_right ?_ hpow)
    rw [zpow_ofNat]
    linarith
  have hle : t ≤ e := by
    by_contra hgt
    -- Only a mantissa that is not zero can ask for a higher exponent than the least one.
    have hM : M ≠ 0 := by
      rintro rfl
      simp only [Nat.log2_zero, Nat.cast_zero] at ht
      omega
    have hlower := (two_zpow_le hM hx).trans_lt hupper
    rw [zpow_lt_zpow_iff_right₀ one_lt_two] at hlower
    omega
  rcases hnormal with hnormal | rfl
  swap
  · omega
  have hm : (2 : ℚ) ^ 23 ≤ m := by exact_mod_cast hnormal
  have hge : ∀ k : Int, 2 ^ (k + e) ≤ x → k + e ≤ t + 23 := by
    intro k hk
    have hlower := hk.trans_lt (lt_two_zpow hx)
    rw [zpow_lt_zpow_iff_right₀ one_lt_two] at hlower
    omega
  by_cases hbelow : 2 ^ 23 ≤ x / 2 ^ e
  · rw [le_div_iff₀ hpow] at hbelow
    have := hge 23 (by rwa [zpow_add₀ two_ne_zero, zpow_ofNat])
    omega
  · rw [not_le] at hbelow
    obtain rfl : m = 2 ^ 23 := by
      have hm' : (m : ℚ) < (2 ^ 23 : Nat) + 1 := by
        push_cast
        linarith [hwithin.low]
      have hm' : m < 2 ^ 23 + 1 := by exact_mod_cast hm'
      omega
    have hlow := hwithin.low
    push_cast at hlow
    have := hge 22 (by
      rw [zpow_add₀ two_ne_zero, zpow_ofNat, ← le_div_iff₀ hpow]
      linarith)
    rcases hle.eq_or_lt with rfl | hlt'
    · exact .inl rfl
    · obtain rfl : t = e - 1 := by omega
      have hquarter := hwithin.belowPower rfl (by omega)
      have hdouble : x / 2 ^ (e - 1) = 2 * (x / 2 ^ e) := by
        rw [zpow_sub₀ two_ne_zero, zpow_one]
        field_simp
      refine .inr ⟨rfl, rfl, ?_, ?_, fun hodd => absurd hodd (by decide)⟩ <;>
        rw [hdouble] <;> push_cast at hquarter ⊢ <;> linarith

/-- A number in the rounding interval of a float is rounded to that float. -/
theorem roundWithAccuracy_of_within (s : Sign) {s' : Sign} {hm : 0 < m}
    (hx : Represents (.ofMantissaAndAccuracy M acc) (x / 2 ^ E))
    (hE : E ≤ Format.binary32.targetExponent (totalExponent M E))
    (hstored : Stored (.finite s' m e hm)) (hwithin : Within m e (x / 2 ^ e)) :
    roundWithAccuracy Format.binary32 s M E acc = .finite s m e hm := by
  obtain ⟨hlt, hmin, _, hnormal⟩ := hstored
  generalize ht : Format.binary32.targetExponent (totalExponent M E) = t at hE
  have hshift : shiftToTargetExponent Format.binary32 M E acc =
      (ExtendedMantissa.ofMantissaAndAccuracy M acc >>> (t - E).toNat, t) := by
    simp only [shiftToTargetExponent, shiftToExponent, ht, Prod.mk.injEq, true_and]
    omega
  have hrepresents : Represents (ExtendedMantissa.ofMantissaAndAccuracy M acc >>> (t - E).toNat)
      (x / 2 ^ t) := by
    have hpow : (2 : ℚ) ^ t = 2 ^ E * 2 ^ (t - E).toNat := by
      rw [← zpow_natCast, ← zpow_add₀ two_ne_zero]
      congr 1
      omega
    rw [hpow, ← div_div]
    exact hx.shiftRight _
  unfold roundWithAccuracy
  rcases targetExponent_cases hx ht hE hlt hmin hnormal hwithin with rfl | ⟨rfl, rfl, hrounds⟩
  · simp only [hshift, hrepresents.roundedMantissa_eq hwithin.toRoundsTo,
      shiftToTargetExponent_nearest hlt.le hmin, if_neg hlt.ne, dif_neg hm.ne']
  · have hmin' : -149 ≤ e - 1 := by
      rw [targetExponent_eq] at ht
      omega
    simp only [hshift, hrepresents.roundedMantissa_eq hrounds,
      shiftToTargetExponent_nearest (Nat.le_refl _) hmin', Int.sub_add_cancel]
    rfl

end

section

variable {m sig : Nat} {e exp : Int}

/-- A number in the rounding interval of a float is neither as large nor as small as powers of two
far out of the range of exponents. -/
theorem range_of_within {x : ℚ} {s : Sign} {hm : 0 < m} (hstored : Stored (.finite s m e hm))
    (hwithin : Within m e (x / 2 ^ e)) : 2 ^ (-150 : Int) ≤ x ∧ x < 2 ^ (128 : Int) := by
  obtain ⟨hlt, hmin, hmax, _⟩ := hstored
  have hpow : (0 : ℚ) < 2 ^ e := by positivity
  have hm' : (1 : ℚ) ≤ m := by exact_mod_cast hm
  have hlt' : (m : ℚ) + 1 ≤ 2 ^ 24 := by exact_mod_cast hlt
  have hlow := (le_div_iff₀ hpow).mp hwithin.low
  have hhigh := (div_le_iff₀ hpow).mp hwithin.high
  constructor
  · calc (2 : ℚ) ^ (-150 : Int) = 1 / 2 * 2 ^ (-149 : Int) := by norm_num
      _ ≤ (m - 1 / 2) * 2 ^ e :=
        mul_le_mul (by linarith) (zpow_le_zpow_right₀ one_le_two hmin) (by positivity)
          (by linarith)
      _ ≤ x := hlow
  · calc x ≤ (m + 1 / 2) * 2 ^ e := hhigh
      _ < 2 ^ 24 * 2 ^ e := mul_lt_mul_of_pos_right (by linarith) hpow
      _ ≤ 2 ^ 24 * 2 ^ (104 : Int) :=
        mul_le_mul_of_nonneg_left (zpow_le_zpow_right₀ one_le_two hmax) (by positivity)
      _ = 2 ^ (128 : Int) := by norm_num

/-- Where the exponent makes reading give up, the number is out of range anyway. -/
theorem exponent_bounds (hsig : sig ≠ 0) {x : ℚ} (hx : x = sig * 10 ^ exp)
    (hlow : 2 ^ (-150 : Int) ≤ x) (hhigh : x < 2 ^ (128 : Int)) :
    exp ≤ 256 ∧ -(256 + (sig.log2 : Int)) ≤ exp := by
  have hone : (1 : ℚ) ≤ sig := by exact_mod_cast Nat.pos_of_ne_zero hsig
  have hten : (0 : ℚ) < 10 ^ exp := by positivity
  constructor
  · by_contra hlarge
    have h : (2 : ℚ) ^ (128 : Int) ≤ x :=
      calc (2 : ℚ) ^ (128 : Int) ≤ 2 ^ exp := zpow_le_zpow_right₀ one_le_two (by omega)
        _ ≤ 10 ^ exp := zpow_le_zpow_left₀ (by omega) (by norm_num) (by norm_num)
        _ ≤ x := hx ▸ le_mul_of_one_le_left hten.le hone
    exact absurd hhigh (not_lt.mpr h)
  · by_contra hsmall
    have hlt : (sig : ℚ) < 10 ^ ((sig.log2 : Int) + 1) := by
      have hlog : sig < 10 ^ (sig.log2 + 1) :=
        Nat.lt_log2_self.trans_le (Nat.pow_le_pow_left (by decide) _)
      exact_mod_cast hlog
    have h : x < 2 ^ (-150 : Int) :=
      calc x < 10 ^ ((sig.log2 : Int) + 1) * 10 ^ exp := hx ▸ mul_lt_mul_of_pos_right hlt hten
        _ = 10 ^ ((sig.log2 : Int) + 1 + exp) := (zpow_add₀ (by norm_num) _ _).symm
        _ ≤ 10 ^ (-150 : Int) := zpow_le_zpow_right₀ (by norm_num) (by omega)
        _ ≤ 2 ^ (-150 : Int) := by norm_num
    exact absurd hlow (not_le.mpr h)

/-- A product of a decimal with a power of ten is rounded to the float whose interval it lies in. -/
theorem mul_of_within (hsig : sig ≠ 0) {hm : 0 < m} {hpos : 0 < sig <<< 24} {n : Nat}
    {hpow : 0 < 10 ^ n} (hstored : Stored (.finite .positive m e hm))
    (hwithin : Within m e (sig * 10 ^ n / 2 ^ e)) :
    UnpackedFloat.mul Format.binary32 (.finite .positive (sig <<< 24) (-24) hpos)
      (.finite .positive (10 ^ n) 0 hpow) = .finite .positive m e hm := by
  have hlog : 24 ≤ (sig <<< 24 * 10 ^ n).log2 := by
    rw [Nat.le_log2 (Nat.mul_ne_zero hpos.ne' hpow.ne'), Nat.shiftLeft_eq]
    calc 2 ^ 24 ≤ sig * 2 ^ 24 := Nat.le_mul_of_pos_left _ (Nat.pos_of_ne_zero hsig)
      _ ≤ sig * 2 ^ 24 * 10 ^ n := Nat.le_mul_of_pos_right _ hpow
  have hvalue : Represents (.ofMantissaAndAccuracy (sig <<< 24 * 10 ^ n) .exact)
      ((sig : ℚ) * 10 ^ n / 2 ^ (-24 + 0 : Int)) := by
    change (sig : ℚ) * 10 ^ n / 2 ^ (-24 + 0 : Int) = (sig <<< 24 * 10 ^ n : Nat)
    rw [Int.add_zero, Nat.shiftLeft_eq, zpow_neg, div_inv_eq_mul, zpow_ofNat]
    push_cast
    ring
  refine roundWithAccuracy_of_within _ hvalue ?_ hstored hwithin
  rw [targetExponent_eq]
  omega

/-- A quotient of a decimal by a power of ten is rounded to the float whose interval it lies in. -/
theorem div_of_within (hsig : sig ≠ 0) {hm : 0 < m} {hpos : 0 < sig} {n : Nat}
    {hpow : 0 < 10 ^ n} (hstored : Stored (.finite .positive m e hm))
    (hwithin : Within m e (sig / 10 ^ n / 2 ^ e)) :
    UnpackedFloat.div Format.binary32 (.finite .positive sig 0 hpos)
      (.finite .positive (10 ^ n) 0 hpow) = .finite .positive m e hm := by
  simp only [UnpackedFloat.div, divCore]
  generalize htarget : min (0 - 0 : Int) (Format.binary32.targetExponent
    (totalExponent sig 0 - totalExponent (10 ^ n) 0)) = E
  have hE : E ≤ 0 ∧ E ≤ max ((sig.log2 : Int) - (10 ^ n : Nat).log2 - 24) (-149) := by
    simp only [Format.targetExponent, totalExponent, Format.mantissaBits, Format.minExponent]
      at htarget
    omega
  generalize hk : (0 - 0 - E).toNat = k
  have hkE : (k : Int) = -E := by omega
  refine roundWithAccuracy_of_within _ ?_ ?_ hstored hwithin
  · have hvalue : (sig : ℚ) / 10 ^ n / 2 ^ E = (sig <<< k : Nat) / (10 ^ n : Nat) := by
      have hE' : E = -(k : Int) := by omega
      rw [hE', Nat.shiftLeft_eq, zpow_neg, zpow_natCast, div_inv_eq_mul]
      push_cast
      ring
    rw [hvalue]
    exact represents_div _ hpow
  · rw [targetExponent_eq]
    -- The quotient has as many bits as the lengths of its operands make it have, or one less.
    have hbits : sig.log2 + k < (sig <<< k / 10 ^ n).log2 + 1 + ((10 ^ n : Nat).log2 + 1) := by
      rw [← Nat.pow_lt_pow_iff_right (a := 2) (by decide), Nat.pow_add, Nat.pow_add 2 (_ + 1)]
      calc 2 ^ sig.log2 * 2 ^ k ≤ sig <<< k := by
            rw [Nat.shiftLeft_eq]
            exact Nat.mul_le_mul_right _ (Nat.log2_self_le hsig)
        _ < (sig <<< k / 10 ^ n + 1) * 10 ^ n := by
            rw [Nat.mul_comm]
            exact Nat.lt_mul_div_succ _ hpow
        _ ≤ 2 ^ ((sig <<< k / 10 ^ n).log2 + 1) * 2 ^ ((10 ^ n : Nat).log2 + 1) :=
            Nat.mul_le_mul Nat.lt_log2_self Nat.lt_log2_self.le
    omega

/-- Every decimal in the rounding interval of a float reads as that float. -/
theorem ofScientific_of_within {hm : 0 < m} (hstored : Stored (.finite .positive m e hm))
    (hwithin : Within m e (sig * 10 ^ exp / 2 ^ e)) :
    UnpackedFloat.ofScientific Format.binary32 sig exp = .finite .positive m e hm := by
  obtain ⟨hlow, hhigh⟩ := range_of_within hstored hwithin
  have hsig : sig ≠ 0 := by
    rintro rfl
    rw [Nat.cast_zero, zero_mul] at hlow
    exact absurd hlow (by norm_num)
  obtain ⟨hlarge, hsmall⟩ := exponent_bounds hsig rfl hlow hhigh
  have hbits : (2 : Int) ^ Format.binary32.exponentBits = 256 := rfl
  unfold UnpackedFloat.ofScientific
  rw [dif_neg hsig, hbits, if_neg (by omega), if_neg (by omega)]
  split
  · refine mul_of_within hsig hstored ?_
    rwa [← zpow_natCast, Int.toNat_of_nonneg (by assumption)]
  · have hexp : exp = -((-exp).toNat : Int) := by omega
    refine div_of_within hsig hstored ?_
    rw [hexp, zpow_neg, zpow_natCast, ← div_eq_mul_inv] at hwithin
    exact hwithin

end

end PixelEffect.Rounding
