import PixelEffect.Shader.Options
import PixelEffect.Shader.Uniform

namespace PixelEffect

/-- A number can be read off its decimal digits, whatever stands behind them that is no digit. -/
theorem eq_of_toDigits_append {i j : Nat} {s t : List Char} (hs : s.head?.all (!·.isDigit))
    (ht : t.head?.all (!·.isDigit)) (h : Nat.toDigits 10 i ++ s = Nat.toDigits 10 j ++ t) :
    i = j ∧ s = t := by
  have htake : ∀ (n : Nat) (rest : List Char), rest.head?.all (!·.isDigit) →
      (Nat.toDigits 10 n ++ rest).takeWhile Char.isDigit = Nat.toDigits 10 n := by
    intro n rest hrest
    rw [List.takeWhile_append_of_pos fun c hc =>
      Nat.isDigit_of_mem_toDigits (by decide) (by decide) hc]
    cases rest with
    | nil => simp
    | cons c rest => simp_all
  have hdigits : Nat.toDigits 10 i = Nat.toDigits 10 j := by
    rw [← htake i s hs, h, htake j t ht]
  refine ⟨?_, List.append_cancel_left (hdigits ▸ h)⟩
  simpa using congrArg (fun digits => Nat.ofDigitChars 10 digits 0) hdigits

/-- Roles are told apart by their names. -/
theorem UniformRole.name_injective {x y : UniformRole} (h : x.name = y.name) : x = y := by
  cases x <;> cases y <;> first | rfl | exact absurd h (by decide)

/-- A function is called by its number in decimal. -/
theorem FunctionName.toList_text (f : FunctionName) :
    f.text.toList = 'f' :: 'p' :: Nat.toDigits 10 f.index.toNat := by
  show ("fp" ++ toString f.index.toNat).toList = _
  rw [Nat.toString_eq_repr, String.toList_append, Nat.toList_repr]
  rfl

/-- A uniform is called by its function and its role. -/
theorem UniformName.toList_text (u : UniformName) : u.text.toList =
    'f' :: 'p' :: (Nat.toDigits 10 u.owner.index.toNat ++ '_' :: u.role.name.toList) := by
  rw [UniformName.text, String.toList_append, String.toList_append, FunctionName.toList_text]
  simp

theorem FunctionName.text_ne_nil (f : FunctionName) : f.text.toList ≠ [] := by
  rw [toList_text]
  exact List.cons_ne_nil _ _

theorem UniformName.text_ne_nil (u : UniformName) : u.text.toList ≠ [] := by
  rw [toList_text]
  exact List.cons_ne_nil _ _

/-- Two functions with one text are the same. -/
theorem FunctionName.text_injective {f g : FunctionName} (h : f.text = g.text) : f = g := by
  have hlist := congrArg String.toList h
  rw [toList_text, toList_text] at hlist
  have hdigits := (List.cons.inj (List.cons.inj hlist).2).2
  rw [← List.append_nil (Nat.toDigits 10 f.index.toNat),
    ← List.append_nil (Nat.toDigits 10 g.index.toNat)] at hdigits
  exact congrArg mk (UInt32.toNat_inj.mp (eq_of_toDigits_append rfl rfl hdigits).1)

/-- Two uniforms with one text are the same. -/
theorem UniformName.text_injective {u v : UniformName} (h : u.text = v.text) : u = v := by
  have hlist := congrArg String.toList h
  rw [toList_text, toList_text] at hlist
  obtain ⟨hindex, hrest⟩ := eq_of_toDigits_append rfl rfl
    (List.cons.inj (List.cons.inj hlist).2).2
  have howner := UInt32.toNat_inj.mp hindex
  have hrole := UniformRole.name_injective (String.toList_inj.mp (List.cons.inj hrest).2)
  obtain ⟨⟨i⟩, x⟩ := u
  obtain ⟨⟨j⟩, y⟩ := v
  simp_all

open ProgramOptions

/-- The name of a function is a word. -/
theorem FunctionName.continuesName_text (f : FunctionName) :
    ∀ c, c ∈ f.text.toList → continuesName c := by
  rw [toList_text, List.forall_mem_cons, List.forall_mem_cons]
  refine ⟨rfl, rfl, fun c hc => ?_⟩
  have hdigit : c.isDigit := Nat.isDigit_of_mem_toDigits (by decide) (by decide) hc
  simp [continuesName, Char.isAlphanum, hdigit]

/-- The names of functions are recognized. -/
theorem FunctionName.isFunctionName_text (f : FunctionName) : isFunctionName f.text.toList := by
  rw [toList_text]
  have hne : (Nat.toDigits 10 f.index.toNat).isEmpty = false := by simp
  simp only [isFunctionName, hne, Bool.not_false, Bool.true_and, List.all_eq_true]
  exact fun c hc => Nat.isDigit_of_mem_toDigits (by decide) (by decide) hc

theorem UniformName.continuesName_text (u : UniformName) :
    ∀ c, c ∈ u.text.toList → continuesName c := by
  have hrole : ("_".toList ++ u.role.name.toList).all continuesName := by
    cases u.role <;> rfl
  intro c hc
  rw [text, String.toList_append, String.toList_append, List.append_assoc] at hc
  rcases List.mem_append.mp hc with hc | hc
  · exact u.owner.continuesName_text c hc
  · exact List.all_eq_true.mp hrole c hc

end PixelEffect
