import PixelEffect.Json.Reader
import PixelEffect.Json.Writer

namespace PixelEffect.Json

theorem hexValue?_digitChar {d : Nat} (h : d < 16) :
    Reader.hexValue? (Nat.digitChar d) = some d := by
  have hall : ∀ d, d < 16 → Reader.hexValue? (Nat.digitChar d) = some d := by decide
  exact hall d h

/-- Control characters are written with two hexadecimal digits behind two zeros. -/
theorem unicode_control {c : Char} (h : c.toNat < 0x20) (rest : List Char) :
    Reader.unicode
      ('0' :: '0' :: Nat.digitChar (c.toNat / 16) :: Nat.digitChar (c.toNat % 16) :: rest) =
      some (c, rest) := by
  have hzero : Reader.hexValue? '0' = some 0 := rfl
  have hhigh := hexValue?_digitChar (d := c.toNat / 16) (by omega)
  have hlow := hexValue?_digitChar (d := c.toNat % 16) (by omega)
  have hvalue : ((0 * 16 + 0) * 16 + c.toNat / 16) * 16 + c.toNat % 16 = c.toNat := by omega
  have hunit : Reader.hexUnit
      ('0' :: '0' :: Nat.digitChar (c.toNat / 16) :: Nat.digitChar (c.toNat % 16) :: rest) =
      some (c.toNat, rest) := by
    simp only [Reader.hexUnit, hzero, hhigh, hlow, Option.bind_eq_bind, Option.bind_some, hvalue]
    rfl
  rw [Reader.unicode, hunit]
  simp only [Option.bind_eq_bind, Option.bind_some]
  rw [if_neg (by omega), if_neg (by omega), Char.ofNat_toNat]
  rfl

/-- A character is read off what it is escaped to. -/
theorem character_escape (c : Char) (rest : List Char) :
    Reader.character (escape c ++ rest) = some (c, rest) := by
  unfold escape
  split
  case h_8 _ _ _ _ _ _ _ =>
    split
    · rename_i hcontrol
      exact unicode_control hcontrol rest
    · rename_i hplain
      rw [List.singleton_append]
      unfold Reader.character
      split <;> simp_all
  all_goals rfl

/-- Nothing is escaped to a text that begins with a quote. -/
theorem escape_ne_quote (c : Char) : ∃ d ds, escape c = d :: ds ∧ d ≠ '"' := by
  unfold escape
  split
  case h_8 hquote _ _ _ _ _ _ =>
    split
    · exact ⟨_, _, rfl, by decide⟩
    · exact ⟨c, [], rfl, hquote⟩
  all_goals exact ⟨_, _, rfl, by decide⟩

/-- The characters of a string are read back up to the closing quote. -/
theorem characters_escape (text rest : List Char) {fuel : Nat} (h : text.length < fuel) :
    Reader.characters fuel (text.flatMap escape ++ '"' :: rest) = some (text, rest) := by
  induction text generalizing fuel with
  | nil =>
    obtain ⟨fuel, rfl⟩ := Nat.exists_eq_succ_of_ne_zero (Nat.ne_of_gt h)
    rfl
  | cons c text ih =>
    obtain ⟨fuel, rfl⟩ := Nat.exists_eq_succ_of_ne_zero (Nat.ne_of_gt (Nat.zero_lt_of_lt h))
    have hcharacter := character_escape c (text.flatMap escape ++ '"' :: rest)
    have hrest := @ih fuel (Nat.lt_of_succ_lt_succ h)
    obtain ⟨d, ds, hescape, hquote⟩ := escape_ne_quote c
    rw [List.flatMap_cons, List.append_assoc]
    rw [hescape, List.cons_append] at hcharacter ⊢
    simp [Reader.characters, hquote, hcharacter, hrest]

/-- Where every member of a list takes some characters, there are no more members than
characters. -/
theorem length_le_length_flatMap {α : Type} {f : α → List Char} (hf : ∀ x, f x ≠ [])
    (xs : List α) : xs.length ≤ (xs.flatMap f).length := by
  induction xs with
  | nil => exact Nat.le_refl _
  | cons x xs ih =>
    have hpos := List.length_pos_iff.mpr (hf x)
    rw [List.flatMap_cons, List.length_append, List.length_cons]
    omega

theorem escape_ne_nil (c : Char) : escape c ≠ [] := by
  obtain ⟨d, ds, hescape, _⟩ := escape_ne_quote c
  rw [hescape]
  exact List.cons_ne_nil d ds

/-- A string is read back, up to the closing quote. -/
theorem string_stringChars (s : String) (rest : List Char) :
    Reader.string (s.toList.flatMap escape ++ '"' :: rest) = some (s, rest) := by
  have hlength := length_le_length_flatMap escape_ne_nil s.toList
  rw [Reader.string, characters_escape]
  · simp
  · simp only [List.length_append, List.length_cons]
    omega

end PixelEffect.Json
