import PixelEffect.Decimal.Shortest
import PixelEffect.Proofs.Number.Nearest

open Float.Model

namespace PixelEffect

/-- A power with a signed exponent, written with two natural ones of which one is zero. -/
theorem pow_toNat_div {b : ℚ} (hb : b ≠ 0) (z : Int) : b ^ z.toNat / b ^ (-z).toNat = b ^ z := by
  rw [← zpow_natCast, ← zpow_natCast, ← zpow_sub₀ hb]
  congr 1
  omega

namespace Decimal

/-- The exact number. -/
def value (d : Decimal) : ℚ := d.significand * 10 ^ d.exponent

@[simp] theorem value_stripZeros (count : Nat) (d : Decimal) :
    (stripZeros count d).value = d.value := by
  induction count generalizing d with
  | zero => rfl
  | succ count ih =>
    rw [stripZeros]
    split
    · rename_i hzero
      have hten : d.significand = 10 * (d.significand / 10) := by omega
      rw [ih, value, value, zpow_add₀ (by norm_num), zpow_one]
      conv_rhs => rw [hten]
      push_cast
      ring
    · rfl

end Decimal

namespace RoundingInterval

/-- The interval as one of rational numbers. -/
structure Contains (i : RoundingInterval) (x : ℚ) : Prop where
  low : (i.low : ℚ) / i.unit ≤ x
  high : x ≤ i.high / i.unit
  ends : i.closed = false → (i.low : ℚ) / i.unit ≠ x ∧ x ≠ i.high / i.unit

/-- An interval that is wide enough for decimals of seventeen digits. -/
structure Proper (i : RoundingInterval) : Prop where
  unit_pos : 0 < i.unit
  two_le : 2 ≤ i.value
  low_lt : i.low < i.value
  lt_high : i.value < i.high
  wide : i.value ≤ 10 ^ 16 * (i.value - i.low)

variable {i : RoundingInterval} {tie : Tie} {g : Int} {d : Decimal}

/-- The test on natural numbers is the one on fractions. -/
theorem contains_iff (hunit : 0 < i.unit) {numerator denominator : Nat} (hd : 0 < denominator) :
    i.contains numerator denominator ↔ i.Contains (numerator / denominator) := by
  have hunit' : (0 : ℚ) < i.unit := by exact_mod_cast hunit
  have hd' : (0 : ℚ) < denominator := by exact_mod_cast hd
  have hlow : ∀ low : Nat, (low : ℚ) / i.unit ≤ numerator / denominator ↔
      low * denominator ≤ numerator * i.unit := by
    intro low
    rw [div_le_div_iff₀ hunit' hd']
    norm_cast
  have hhigh : ∀ high : Nat, (numerator : ℚ) / denominator ≤ high / i.unit ↔
      numerator * i.unit ≤ high * denominator := by
    intro high
    rw [div_le_div_iff₀ hd' hunit']
    norm_cast
  have hne : ∀ bound : Nat, (bound : ℚ) / i.unit = numerator / denominator ↔
      bound * denominator = numerator * i.unit := by
    intro bound
    rw [div_eq_div_iff hunit'.ne' hd'.ne']
    norm_cast
  unfold contains
  constructor
  · intro h
    split at h <;> simp only [Bool.and_eq_true, decide_eq_true_eq] at h
    · rename_i hclosed
      exact ⟨(hlow _).mpr h.1, (hhigh _).mpr h.2, fun hopen => absurd (hopen ▸ hclosed) (by simp)⟩
    · refine ⟨(hlow _).mpr h.1.le, (hhigh _).mpr h.2.le, fun _ => ⟨?_, ?_⟩⟩
      · rw [ne_eq, hne]
        exact h.1.ne
      · rw [ne_eq, eq_comm, hne]
        exact h.2.ne'
  · rintro ⟨hl, hh, hends⟩
    rw [hlow] at hl
    rw [hhigh] at hh
    split <;> simp only [Bool.and_eq_true, decide_eq_true_eq]
    · exact ⟨hl, hh⟩
    · rename_i hopen
      obtain ⟨hl', hh'⟩ := hends (Bool.not_eq_true _ ▸ hopen)
      rw [ne_eq, hne] at hl'
      rw [ne_eq, eq_comm, hne] at hh'
      exact ⟨lt_of_le_of_ne hl hl', lt_of_le_of_ne hh (Ne.symm hh')⟩

/-- Points of a grid as fractions. -/
theorem contains_grid_iff (hunit : 0 < i.unit) (n : Nat) (g : Int) :
    i.contains (n * Nat.pow 10 g.toNat) (Nat.pow 10 (-g).toNat) ↔
      i.Contains (Decimal.value ⟨n, g⟩) := by
  have hvalue : ((n * Nat.pow 10 g.toNat : Nat) : ℚ) / (Nat.pow 10 (-g).toNat : Nat) =
      Decimal.value ⟨n, g⟩ := by
    rw [Decimal.value, ← pow_toNat_div (by norm_num)]
    push_cast [Nat.pow_eq]
    ring
  have hpos : 0 < Nat.pow 10 (-g).toNat := Nat.pow_pos (by decide)
  rw [contains_iff hunit hpos, hvalue]

/-- If both neighbors on the grid lie in the interval, then so does the one that is taken. -/
theorem contains_either {below : Nat} (hlower : i.Contains (Decimal.value ⟨below, g⟩))
    (hupper : i.Contains (Decimal.value ⟨below + 1, g⟩)) (takeUpper : Bool) :
    i.Contains (Decimal.value ⟨if takeUpper then below + 1 else below, g⟩) := by
  cases takeUpper
  · exact hlower
  · exact hupper

/-- What is taken from a grid lies in the interval. -/
theorem contains_of_onGrid? (hunit : 0 < i.unit) (h : i.onGrid? tie g = some d) :
    i.Contains d.value := by
  simp only [onGrid?, Bool.and_eq_true] at h
  split at h
  · rename_i hboth
    rw [contains_grid_iff hunit, contains_grid_iff hunit] at hboth
    cases h
    exact contains_either hboth.1 hboth.2 _
  · split at h
    · rename_i hlower
      cases h
      exact (contains_grid_iff hunit _ _).mp hlower
    · split at h
      · rename_i hupper
        cases h
        exact (contains_grid_iff hunit _ _).mp hupper
      · cases h

/-- A grid whose step is not larger than the lower half of the interval has a point there. -/
theorem isSome_onGrid? (hi : i.Proper) (hstep : (10 : ℚ) ^ g * i.unit ≤ i.value - i.low) :
    (i.onGrid? tie g).isSome := by
  have hunit : (0 : ℚ) < i.unit := by exact_mod_cast hi.unit_pos
  have hlower : i.contains
      (i.value * Nat.pow 10 (-g).toNat / (Nat.pow 10 g.toNat * i.unit) * Nat.pow 10 g.toNat)
      (Nat.pow 10 (-g).toNat) := by
    rw [contains_grid_iff hi.unit_pos]
    generalize hpoint :
      i.value * Nat.pow 10 (-g).toNat / (Nat.pow 10 g.toNat * i.unit) = below
    have hten : (10 : ℚ) ^ (-g).toNat ≠ 0 := by positivity
    have hstepPos : 0 < Nat.pow 10 g.toNat * i.unit :=
      Nat.mul_pos (Nat.pow_pos (by decide)) hi.unit_pos
    -- The point is the last one that is not above the center.
    have hle : (below : ℚ) * 10 ^ g * i.unit ≤ i.value := by
      have hnat : below * (Nat.pow 10 g.toNat * i.unit) ≤ i.value * Nat.pow 10 (-g).toNat :=
        hpoint ▸ Nat.div_mul_le_self _ _
      have hrat : (below : ℚ) * (10 ^ g.toNat * i.unit) ≤ i.value * 10 ^ (-g).toNat := by
        exact_mod_cast hnat
      rw [← pow_toNat_div (by norm_num), mul_div_assoc', div_mul_eq_mul_div, mul_assoc,
        div_le_iff₀ (by positivity)]
      exact hrat
    have hlt : (i.value : ℚ) < (below + 1) * 10 ^ g * i.unit := by
      have hnat : i.value * Nat.pow 10 (-g).toNat <
          (below + 1) * (Nat.pow 10 g.toNat * i.unit) := by
        rw [← hpoint, Nat.mul_comm (_ + 1)]
        exact Nat.lt_mul_div_succ _ hstepPos
      have hrat : (i.value : ℚ) * 10 ^ (-g).toNat < (below + 1) * (10 ^ g.toNat * i.unit) := by
        exact_mod_cast hnat
      rw [← pow_toNat_div (by norm_num), mul_div_assoc', div_mul_eq_mul_div, mul_assoc,
        lt_div_iff₀ (by positivity)]
      exact hrat
    have hhigh : (i.value : ℚ) < i.high := by exact_mod_cast hi.lt_high
    have hlow : (i.low : ℚ) / i.unit < below * 10 ^ g := by
      rw [div_lt_iff₀ hunit]
      linarith
    have habove : (below : ℚ) * 10 ^ g < i.high / i.unit := by
      rw [lt_div_iff₀ hunit]
      linarith
    exact ⟨hlow.le, habove.le, fun _ => ⟨hlow.ne, habove.ne⟩⟩
  simp only [onGrid?, hlower, Bool.true_and, if_true]
  split <;> rfl

/-- The decade of a number is not too high. -/
theorem ten_zpow_decade_le (hi : i.Proper) : (10 : ℚ) ^ (i.decade - 1) * i.unit ≤ i.value := by
  have hunit : (0 : ℚ) < i.unit := by exact_mod_cast hi.unit_pos
  simp only [decade]
  generalize hshift : i.unit.log2 = shift
  generalize hN : i.value * Nat.pow 10 shift / i.unit = N
  have hpos : 0 < N := by
    rw [← hN]
    refine Nat.div_pos ?_ hi.unit_pos
    calc i.unit ≤ 2 ^ (shift + 1) := hshift ▸ Nat.lt_log2_self.le
      _ = 2 * 2 ^ shift := by rw [Nat.pow_succ, Nat.mul_comm]
      _ ≤ i.value * Nat.pow 10 shift :=
        Nat.mul_le_mul hi.two_le (Nat.pow_le_pow_left (by decide) _)
  have hdigits : 10 ^ ((Nat.toDigits 10 N).length - 1) ≤ N := by
    by_contra hlt
    have hlength := @Nat.length_toDigits_pos 10 N
    rcases Nat.eq_zero_or_pos ((Nat.toDigits 10 N).length - 1) with hone | hmore
    · rw [hone] at hlt
      omega
    · have hshorter := (Nat.length_toDigits_le_iff (n := N) (by decide) hmore).mpr (not_le.mp hlt)
      omega
  generalize hlength : (Nat.toDigits 10 N).length = length at hdigits
  have hlengthPos : 0 < length := hlength ▸ Nat.length_toDigits_pos
  have hscaled : N * i.unit ≤ i.value * Nat.pow 10 shift := hN ▸ Nat.div_mul_le_self _ _
  have hscaled' : (N : ℚ) * i.unit ≤ i.value * 10 ^ shift := by exact_mod_cast hscaled
  have hdigits' : (10 : ℚ) ^ (length - 1) ≤ N := by exact_mod_cast hdigits
  have hexp : (10 : ℚ) ^ ((length : Int) - shift - 1) = 10 ^ (length - 1) / 10 ^ shift := by
    rw [← zpow_natCast, ← zpow_natCast, ← zpow_sub₀ (by norm_num)]
    congr 1
    omega
  rw [hexp, div_mul_eq_mul_div, div_le_iff₀ (by positivity)]
  exact (mul_le_mul_of_nonneg_right hdigits' hunit.le).trans hscaled'

/-- The shortest decimal lies in the interval. -/
theorem contains_shortest (hi : i.Proper) (tie : Tie) : i.Contains (i.shortest tie).value := by
  have hunit : (0 : ℚ) < i.unit := by exact_mod_cast hi.unit_pos
  have hstep : (10 : ℚ) ^ (i.decade - 1 - (16 : Nat)) * i.unit ≤ i.value - i.low := by
    have hwide : (i.value : ℚ) ≤ 10 ^ 16 * (i.value - i.low) := by
      have hcast : ((i.value - i.low : Nat) : ℚ) = i.value - i.low := Nat.cast_sub hi.low_lt.le
      rw [← hcast]
      exact_mod_cast hi.wide
    rw [zpow_sub₀ (by norm_num), zpow_natCast, div_mul_eq_mul_div, div_le_iff₀ (by positivity),
      mul_comm (_ - _)]
    exact (ten_zpow_decade_le hi).trans hwide
  obtain ⟨d, hd⟩ : ∃ d, (List.range 17).findSome?
      (fun (n : Nat) => i.onGrid? tie (i.decade - 1 - n)) = some d := by
    rw [← Option.isSome_iff_exists, List.findSome?_isSome_iff]
    exact ⟨16, List.mem_range.mpr (by decide), isSome_onGrid? hi hstep⟩
  obtain ⟨n, _, hn⟩ := List.exists_of_findSome?_eq_some hd
  rw [shortest, hd, Option.getD_some, Decimal.value_stripZeros]
  exact contains_of_onGrid? hi.unit_pos hn

section

variable {m : Nat} {e : Int}

/-- The interval of a number in single precision is one that a grid point can be looked for in. -/
theorem proper_around (hm : 0 < m) (hlt : m < 2 ^ 24) :
    (around Format.binary32 m e).Proper := by
  have hscale : 0 < Nat.pow 2 (e - 2).toNat := Nat.pow_pos (by decide)
  unfold around
  generalize Nat.pow 2 (e - 2).toNat = scale at *
  dsimp only
  generalize hbelow : (if m = _ ∧ _ < e then 1 else 2) = below
  have hbelow : 1 ≤ below ∧ below ≤ 2 := by
    rw [← hbelow]
    split <;> decide
  refine ⟨Nat.pow_pos (by decide), ?_, ?_, ?_, ?_⟩
  · exact Nat.mul_le_mul (by omega : 2 ≤ 4 * m) hscale
  · exact Nat.mul_lt_mul_of_pos_right (by omega) hscale
  · exact Nat.mul_lt_mul_of_pos_right (by omega) hscale
  · dsimp only
    rw [← Nat.sub_mul, ← Nat.mul_assoc]
    exact Nat.mul_le_mul_right scale (by omega)

/-- The interval that decimals are looked for in is the one in which numbers are rounded to the
given one. -/
theorem within_of_contains_around (hm : 0 < m) {x : ℚ}
    (h : (around Format.binary32 m e).Contains x) : Rounding.Within m e (x / 2 ^ e) := by
  have hpow : (0 : ℚ) < 2 ^ e := by positivity
  have hends : ∀ n : Nat,
      ((n * Nat.pow 2 (e - 2).toNat : Nat) : ℚ) / (Nat.pow 2 (2 - e).toNat : Nat) =
        n / 4 * 2 ^ e := by
    intro n
    have hscale : (2 : ℚ) ^ (e - 2).toNat / 2 ^ (2 - e).toNat = 2 ^ e / 4 := by
      have hneg : 2 - e = -(e - 2) := by ring
      rw [hneg, pow_toNat_div two_ne_zero, zpow_sub₀ two_ne_zero]
      norm_num
    push_cast [Nat.pow_eq]
    rw [mul_div_assoc, hscale]
    ring
  obtain ⟨hlow, hhigh, hopen⟩ := h
  simp only [around, hends] at hlow hhigh hopen
  generalize hbelow : (if m = _ ∧ _ < e then 1 else 2) = below at hlow hopen
  have hbelow' : below ≤ 2 := by
    rw [← hbelow]
    split <;> decide
  have hbelow'' : (below : ℚ) ≤ 2 := by exact_mod_cast hbelow'
  rw [Nat.cast_sub (by omega)] at hlow hopen
  push_cast at hlow hhigh hopen
  rw [← le_div_iff₀ hpow] at hlow
  rw [← div_le_iff₀ hpow] at hhigh
  refine ⟨⟨by linarith, by linarith, fun hodd => ?_⟩, fun hmin hexp => ?_⟩
  · obtain ⟨hlow', hhigh'⟩ := hopen (by simp [hodd])
    have hne : m ≠ 2 ^ 23 := by
      rintro rfl
      exact absurd hodd (by decide)
    obtain rfl : below = 2 := by
      rw [← hbelow, if_neg]
      exact fun hpower => hne hpower.1
    refine ⟨fun hx => hlow' ?_, fun hx => hhigh' ?_⟩ <;> rw [div_eq_iff hpow.ne'] at hx <;>
      rw [hx] <;> push_cast <;> ring
  · obtain rfl : below = 1 := by
      rw [← hbelow, if_pos]
      exact ⟨hmin, hexp⟩
    linarith

end

end RoundingInterval

namespace Ieee

/-- The shortest decimal of a number lies in the rounding interval of the number. -/
theorem within_shortest {x : Single} {s : UnpackedFloat.Sign} {m : Nat} {e : Int} {hm : 0 < m}
    (hx : x.unpack = .finite s m e hm) (tie : Tie) :
    Rounding.Within m e ((x.shortest tie).value / 2 ^ e) := by
  have hstored := Rounding.stored_unpack x
  rw [hx] at hstored
  rw [shortest, hx]
  exact RoundingInterval.within_of_contains_around hm
    (RoundingInterval.contains_shortest (RoundingInterval.proper_around hm hstored.1) tie)

end Ieee

end PixelEffect
