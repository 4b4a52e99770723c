import PixelEffect.Proofs.Decimal.Numeral
import PixelEffect.Proofs.Decimal.Shortest
import PixelEffect.Proofs.Number.Products

open Float.Model

namespace PixelEffect

namespace Numeral

theorem ofDigits_eq (ds : List Char) : ofDigits ds = Nat.ofDigitChars 10 ds 0 := rfl

/-- The digits of a natural number are worth that number. -/
theorem ofDigits_toDigits (n : Nat) : ofDigits (Nat.toDigits 10 n) = n := by
  rw [ofDigits_eq, Nat.ofDigitChars_ten_toDigits]

/-- Zeros behind the digits multiply by ten each. -/
theorem ofDigits_append_zeros (ds : List Char) (count : Nat) :
    ofDigits (ds ++ List.replicate count '0') = 10 ^ count * ofDigits ds := by
  rw [ofDigits_eq, Nat.ofDigitChars_append, Nat.ofDigitChars_replicate_zero, ofDigits_eq]

/-- Zeros in front of the digits add nothing. -/
theorem ofDigits_zeros_append (count : Nat) (ds : List Char) :
    ofDigits (List.replicate count '0' ++ ds) = ofDigits ds := by
  rw [ofDigits_eq, Nat.ofDigitChars_append, Nat.ofDigitChars_replicate_zero, Nat.mul_zero,
    ofDigits_eq]

theorem power_of_ne_minus {n : Numeral} {sign : ExponentSign} {ds : List Char}
    (h : n.exponent = some (sign, ds)) (hsign : sign ≠ .minus) : n.power = ofDigits ds := by
  rw [power, h]
  cases sign with
  | minus => exact absurd rfl hsign
  | absent | plus => rfl

/-- The value of a numeral without an exponent. -/
theorem value_magnitude (negative : Bool) (whole fraction : List Char) :
    (magnitude ⟨negative, whole, fraction, none⟩).value =
      ofDigits (whole ++ fraction) / 10 ^ fraction.length := by
  rw [magnitude, power, Decimal.value, zero_sub, zpow_neg, zpow_natCast, div_eq_mul_inv]

end Numeral

namespace Decimal

theorem ofDigits_digits (d : Decimal) : Numeral.ofDigits d.digits = d.significand :=
  Numeral.ofDigits_toDigits _

/-- A decimal whose point is behind all digits is a whole number. -/
theorem value_of_nonneg {d : Decimal} (h : 0 ≤ d.exponent) :
    d.value = (10 ^ d.exponent.toNat * d.significand : Nat) := by
  rw [value]
  conv_lhs => rw [← Int.toNat_of_nonneg h]
  rw [zpow_natCast]
  push_cast
  ring

/-- The value of a decimal with digits behind the point. -/
theorem value_of_nonpos {d : Decimal} (h : d.exponent ≤ 0) :
    d.value = d.significand / 10 ^ (-d.exponent).toNat := by
  have hexp : d.exponent = -((-d.exponent).toNat : Int) := by omega
  rw [value]
  conv_lhs => rw [hexp]
  rw [zpow_neg, zpow_natCast, div_eq_mul_inv]

end Decimal

namespace NumberStyle

open Numeral Decimal

variable {style : NumberStyle}

/-- A point with digits on either side of it, or with zeros on one side. -/
theorem value_positional (negative : Bool) (d : Decimal) :
    (style.positional negative d).magnitude.value = d.value := by
  have hdigits := ofDigits_digits d
  have hne := digits_ne_nil d
  have hpoint : d.point = d.exponent + d.digits.length := rfl
  simp only [positional, hpoint]
  generalize d.digits = ds at *
  have hlength : 0 < ds.length := List.length_pos_iff.mpr hne
  by_cases hbefore : d.exponent + ds.length ≤ 0
  · -- All digits are behind the point, and zeros in front of them.
    have htake : (d.exponent + (ds.length : Int)).toNat = 0 := by omega
    rw [if_pos hbefore, htake, List.drop_zero, if_neg (by simp [hne]), value_magnitude,
      value_of_nonpos (by omega)]
    have hzeros : ofDigits (['0'] ++
        (List.replicate (-(d.exponent + (ds.length : Int))).toNat '0' ++ ds)) = d.significand := by
      rw [← hdigits, ← List.replicate_one, ofDigits_zeros_append, ofDigits_zeros_append]
    rw [hzeros, List.length_append, List.length_replicate]
    congr 2
    omega
  · have hzeros : (-(d.exponent + (ds.length : Int))).toNat = 0 := by omega
    rw [if_neg hbefore, hzeros, List.replicate_zero, List.nil_append]
    by_cases hafter : d.exponent < 0
    · -- The point is between two digits.
      have hfill : (d.exponent + (ds.length : Int)).toNat - ds.length = 0 := by omega
      have hdrop : ds.drop (d.exponent + (ds.length : Int)).toNat ≠ [] := by
        rw [ne_eq, List.drop_eq_nil_iff]
        omega
      rw [hfill, List.replicate_zero, List.append_nil, if_neg (by simp [hdrop]), value_magnitude,
        List.take_append_drop, hdigits, value_of_nonpos hafter.le, List.length_drop]
      congr 2
      omega
    · -- All digits are in front of the point, and zeros behind them.
      have hfill : (d.exponent + (ds.length : Int)).toNat - ds.length = d.exponent.toNat := by omega
      have htake : ds.take (d.exponent + (ds.length : Int)).toNat = ds :=
        List.take_of_length_le (by omega)
      have hdrop : ds.drop (d.exponent + (ds.length : Int)).toNat = [] :=
        List.drop_eq_nil_iff.mpr (by omega)
      have hwhole : ofDigits (ds ++ List.replicate d.exponent.toNat '0') =
          10 ^ d.exponent.toNat * d.significand := by
        rw [ofDigits_append_zeros, hdigits]
      rw [hfill, htake, hdrop, value_magnitude, value_of_nonneg (by omega), ← hwhole]
      cases style.keepFraction with
      | false => simp
      | true =>
        have hzero := ofDigits_append_zeros (ds ++ List.replicate d.exponent.toNat '0') 1
        rw [List.replicate_one] at hzero
        rw [if_pos (by simp), hzero]
        simp

/-- The exponent says where the point really is. -/
theorem value_scientific (negative : Bool) (d : Decimal) :
    (style.scientific negative d).magnitude.value = d.value := by
  have hpower : (style.scientific negative d).power = d.point - 1 := by
    by_cases hneg : d.point - 1 < 0
    · have hexponent : (style.scientific negative d).exponent =
          some (.minus, Nat.toDigits 10 (d.point - 1).natAbs) := by
        simp only [scientific, if_pos hneg]
      rw [power, hexponent]
      simp only [ofDigits_toDigits]
      omega
    · rw [power_of_ne_minus rfl, ofDigits_toDigits]
      · omega
      · rw [if_neg hneg]
        cases style.plusSign <;> decide
  have hlength : (d.digits.drop 1).length + 1 = d.digits.length := by
    have := List.length_pos_iff.mpr (digits_ne_nil d)
    rw [List.length_drop]
    omega
  have hmagnitude : (style.scientific negative d).magnitude = d := by
    rw [magnitude, hpower]
    simp only [scientific, List.take_append_drop, ofDigits_digits]
    rw [point]
    congr 1
    omega
  rw [hmagnitude]

/-- Every numeral of a number is worth its shortest decimal. -/
theorem value_numeral {fmt : Format} (style : NumberStyle) (x : Ieee fmt) :
    (style.numeral x).magnitude.value = (x.shortest style.tie).value := by
  simp only [numeral]
  split
  · rename_i hzero
    rw [value_magnitude, value, hzero]
    cases style.keepFraction <;> simp [ofDigits, digitValue]
  · split
    · exact value_positional _ _
    · exact value_scientific _ _

/-- The sign of a numeral is that of the number, also of a zero. -/
theorem negative_numeral {fmt : Format} (style : NumberStyle) (x : Ieee fmt) :
    (style.numeral x).negative = x.isNegative := by
  simp only [numeral]
  split
  · rfl
  · split <;> rfl

end NumberStyle

namespace Ieee

open Rounding

/-- Changing the sign of a number flips the bit that carries the sign. -/
theorem neg_pack_finite {m : Nat} {e : Int} (hm : 0 < m) :
    neg (pack (.finite .positive m e hm) : Single) = pack (.finite .negative m e hm) := by
  have hflip : ∀ (exponent : BitVec 8) (mantissa : BitVec 23),
      UnpackedFloat.packComponents Format.binary32 .positive exponent mantissa ^^^
        signMask Format.binary32 =
      UnpackedFloat.packComponents Format.binary32 .negative exponent mantissa := by
    intro exponent mantissa
    simp only [UnpackedFloat.packComponents, signMask, UnpackedFloat.packedZero]
    rw [BitVec.xor_append, BitVec.xor_append]
    congr 2 <;> simp
  simp only [neg, pack, UnpackedFloat.pack]
  split
  · exact congrArg Ieee.mk (hflip _ _)
  · split <;> exact congrArg Ieee.mk (hflip _ _)

/-- A finite number is the one nearest to any of its numerals. -/
theorem nearest_numeral (style : NumberStyle) {x : Single} (hx : x.isFinite) :
    (style.numeral x).nearest = x := by
  obtain ⟨hnan, hinfinity⟩ := isFinite_iff.mp hx
  have hpack := pack_unpack hnan
  have hstored := stored_unpack x
  have hvalue := NumberStyle.value_numeral style x
  rw [Numeral.nearest, NumberStyle.negative_numeral]
  cases hunpack : x.unpack with
  | notANumber =>
    rw [isNaN, hunpack] at hnan
    cases hnan
  | infinity s => exact absurd hunpack (hinfinity s)
  | zero s =>
    have hsignificand : (style.numeral x).magnitude.significand = 0 := by
      rw [shortest, hunpack, Decimal.value, Decimal.value, Nat.cast_zero, MulZeroClass.zero_mul,
        mul_eq_zero, Nat.cast_eq_zero] at hvalue
      exact hvalue.resolve_right (by positivity)
    have hzero : ∀ exponent, UnpackedFloat.ofScientific Format.binary32 0 exponent =
        .zero .positive := fun _ => rfl
    rw [hunpack] at hpack
    rw [ofDecimal, hsignificand, hzero, isNegative, hunpack, ← hpack]
    cases s with
    | positive => rfl
    | negative => decide
  | finite s m e hm =>
    rw [hunpack] at hstored hpack
    have hwithin := within_shortest hunpack style.tie
    rw [← hvalue] at hwithin
    rw [ofDecimal, ofScientific_of_within hstored hwithin, isNegative, hunpack, ← hpack]
    cases s with
    | positive => rfl
    | negative => exact neg_pack_finite hm

end Ieee

end PixelEffect
