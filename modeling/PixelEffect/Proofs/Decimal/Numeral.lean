import PixelEffect.Decimal.Numeral

namespace PixelEffect

namespace Numeral

/-- The numeral has digits where digits belong. -/
structure Regular (n : Numeral) : Prop where
  whole : ∀ c, c ∈ n.whole → c.isDigit
  fraction : ∀ c, c ∈ n.fraction → c.isDigit
  exponent : ∀ sign ds, n.exponent = some (sign, ds) → ∀ c, c ∈ ds → c.isDigit

/-- The numeral is one of JSON: there are digits in front, of which a zero is the only one if it is
the first one, and there are digits behind the letter of an exponent. -/
structure Strict (n : Numeral) : Prop extends Regular n where
  whole_ne : n.whole ≠ []
  leading : n.whole.head? = some '0' → n.whole = ['0']
  exponent_ne : ∀ sign ds, n.exponent = some (sign, ds) → ds ≠ []

theorem mem_exponentChars {sign : ExponentSign} {ds : List Char} {c : Char}
    (hc : c ∈ exponentChars (sign, ds)) : c ∈ ds ∨ c ∈ ['-', '+', '.', 'e'] := by
  cases sign <;> simp only [exponentChars, List.mem_cons] at hc <;> grind

/-- The characters of a numeral are digits, signs, a point and the letter of an exponent. -/
theorem Regular.mem_toChars {n : Numeral} (h : n.Regular) {c : Char} (hc : c ∈ n.toChars) :
    c.isDigit ∨ c ∈ ['-', '+', '.', 'e'] := by
  simp only [toChars, List.mem_append] at hc
  rcases hc with ((hc | hc) | hc) | hc
  · split at hc <;> simp_all
  · exact .inl (h.whole c hc)
  · split at hc
    · cases hc
    · rcases List.mem_cons.mp hc with rfl | hc
      · simp
      · exact .inl (h.fraction c hc)
  · cases he : n.exponent with
    | none => simp [he] at hc
    | some e =>
      rw [he, Option.map_some, Option.getD_some] at hc
      exact (mem_exponentChars hc).imp_left (h.exponent e.1 e.2 he c)

end Numeral

namespace NumberStyle

variable {fmt : Float.Model.Format} {style : NumberStyle}

/-- A decimal is written with digits only. -/
theorem isDigit_of_mem_digits {d : Decimal} {c : Char} (hc : c ∈ d.digits) : c.isDigit :=
  Nat.isDigit_of_mem_toDigits (by decide) (by decide) hc

theorem isDigit_of_mem_zeros {n : Nat} {c : Char} (hc : c ∈ List.replicate n '0') : c.isDigit := by
  rw [List.eq_of_mem_replicate hc]
  rfl

theorem regular_positional (negative : Bool) (d : Decimal) :
    (style.positional negative d).Regular where
  whole := by
    intro c hc
    simp only [positional] at hc
    split at hc
    · rw [List.mem_singleton.mp hc]; rfl
    · rcases List.mem_append.mp hc with hc | hc
      · exact isDigit_of_mem_digits (List.mem_of_mem_take hc)
      · exact isDigit_of_mem_zeros hc
  fraction := by
    intro c hc
    simp only [positional] at hc
    split at hc
    · rw [List.mem_singleton.mp hc]; rfl
    · rcases List.mem_append.mp hc with hc | hc
      · exact isDigit_of_mem_zeros hc
      · exact isDigit_of_mem_digits (List.mem_of_mem_drop hc)
  exponent := fun _ _ h => by cases h

theorem regular_scientific (negative : Bool) (d : Decimal) :
    (style.scientific negative d).Regular where
  whole := fun _ hc => isDigit_of_mem_digits (List.mem_of_mem_take hc)
  fraction := fun _ hc => isDigit_of_mem_digits (List.mem_of_mem_drop hc)
  exponent := by
    intro sign ds h c hc
    cases h
    exact Nat.isDigit_of_mem_toDigits (by decide) (by decide) hc

/-- Every style writes digits where digits belong. -/
theorem regular_numeral (style : NumberStyle) (x : Ieee fmt) : (style.numeral x).Regular := by
  simp only [numeral]
  split
  · refine ⟨by simp, ?_, fun _ _ h => by cases h⟩
    dsimp only
    split <;> simp
  · split
    · exact regular_positional _ _
    · exact regular_scientific _ _

/-- The digits of a positive number do not begin with a zero. -/
theorem head?_toDigits_ne {n : Nat} (h : 0 < n) : (Nat.toDigits 10 n).head? ≠ some '0' := by
  induction n using Nat.strongRecOn with
  | ind n ih =>
    by_cases hlt : n < 10
    · have hdigit : ∀ d, d < 10 → 0 < d → Nat.digitChar d ≠ '0' := by decide
      rw [Nat.toDigits_of_lt_base hlt]
      simpa using hdigit n hlt h
    · rw [Nat.toDigits_of_base_le (by decide) (by omega)]
      rw [List.head?_append, Option.or_of_isSome (by simp)]
      exact ih (n / 10) (by omega) (by omega)

theorem digits_ne_nil (d : Decimal) : d.digits ≠ [] := Nat.toDigits_ne_nil

/-- Digits that are cut off behind the first one begin with the same digit. -/
theorem head?_take_append {ds rest : List Char} {count : Nat} (hne : ds ≠ []) (hcount : 0 < count) :
    (ds.take count ++ rest).head? = ds.head? := by
  cases ds with
  | nil => contradiction
  | cons c ds =>
    obtain ⟨count, rfl⟩ := Nat.exists_eq_succ_of_ne_zero (Nat.ne_of_gt hcount)
    rfl

/-- The zeros that are filled in around the digits leave none at the front of a whole part. -/
theorem strict_positional (negative : Bool) {d : Decimal} (h : 0 < d.significand) :
    (style.positional negative d).Strict where
  toRegular := regular_positional negative d
  whole_ne := by
    simp only [positional]
    split
    · exact List.cons_ne_nil _ _
    · intro hnil
      have hdigits : (d.digits.take d.point.toNat).length = 0 := by
        rw [(List.append_eq_nil_iff.mp hnil).1]
        rfl
      have hpos := List.length_pos_iff.mpr (digits_ne_nil d)
      rw [List.length_take] at hdigits
      omega
  leading := by
    simp only [positional]
    split
    · exact fun _ => rfl
    · intro hzero
      rw [head?_take_append (digits_ne_nil d) (by omega)] at hzero
      exact absurd hzero (head?_toDigits_ne h)
  exponent_ne := fun _ _ h => (by cases h)

theorem strict_scientific (negative : Bool) {d : Decimal} (h : 0 < d.significand) :
    (style.scientific negative d).Strict where
  toRegular := regular_scientific negative d
  whole_ne := by
    have hpos := List.length_pos_iff.mpr (digits_ne_nil d)
    rw [← List.length_pos_iff, scientific, List.length_take]
    omega
  leading := by
    intro hzero
    have hhead := @head?_take_append _ [] 1 (digits_ne_nil d) Nat.one_pos
    rw [List.append_nil] at hhead
    exact absurd (hhead.symm.trans hzero) (head?_toDigits_ne h)
  exponent_ne := by
    intro sign ds h
    cases h
    exact Nat.toDigits_ne_nil

/-- Every numeral is one that JSON accepts. -/
theorem strict_numeral (style : NumberStyle) (x : Ieee fmt) : (style.numeral x).Strict := by
  have hregular := regular_numeral style x
  simp only [numeral] at hregular ⊢
  split
  · rw [if_pos (by assumption)] at hregular
    exact ⟨hregular, List.cons_ne_nil _ _, fun _ => rfl, fun _ _ h => (by cases h)⟩
  · split
    · exact strict_positional _ (by omega)
    · exact strict_scientific _ (by omega)

/-- The characters that a number is written with, including the values that are no numbers. -/
theorem mem_text {x : Ieee fmt} {c : Char} (hc : c ∈ (style.text x).toList) :
    c.isDigit ∨ c ∈ ['-', '+', '.', 'e', 'N', 'a', 'i', 'n', 'f'] := by
  unfold text at hc
  split at hc
  · simp only [String.reduceToList, List.mem_cons] at hc
    grind
  · split at hc
    · rw [String.toList_ofList] at hc
      refine ((regular_numeral style x).mem_toChars hc).imp_right fun hc => ?_
      exact List.mem_append_left ['N', 'a', 'i', 'n', 'f'] hc
    · split at hc <;> simp only [String.reduceToList, List.mem_cons] at hc <;> grind

end NumberStyle

end PixelEffect
