import PixelEffect.Proofs.Decimal.Numeral
import PixelEffect.Proofs.Shader.Lexical

namespace PixelEffect.Shader

open ProgramOptions (continuesName isFunctionName)

def Variable.uses : Variable → List Reference
  | fragCoord => [.global fragCoord.text.toList]
  | destColor => [.global destColor.text.toList]
  | input | coords | named _ => []

namespace Expression

mutual

/-- What an expression refers to, from left to right. -/
def uses : Expression → List Reference
  | literal _ => []
  | var x => x.uses
  | uniform name => [.read name.text.toList]
  | components e _ => e.uses
  | binary _ left right => left.uses ++ right.uses
  | group e => e.uses
  | builtin _ arguments => usesOfAll arguments
  | call f input coords => .call f.text.toList :: (input.uses ++ coords.uses)

def usesOfAll : List Expression → List Reference
  | [] => []
  | e :: rest => e.uses ++ usesOfAll rest

end

end Expression

theorem isGlobal_function (f : FunctionName) : isGlobal f.text.toList = false := by
  rw [FunctionName.toList_text]
  simp [isGlobal, Variable.text]

/-- The name of a function in front of a parenthesis is a call. -/
theorem references_function (f : FunctionName) :
    references (f.text ++ "(") = [.call f.text.toList] := by
  rw [references_applied f.continuesName_text f.text_ne_nil (isGlobal_function f) rfl,
    if_pos f.isFunctionName_text]

theorem isGlobal_uniform (u : UniformName) : isGlobal u.text.toList = false := by
  rw [UniformName.toList_text]
  simp [isGlobal, Variable.text]

/-- A member of the block of uniforms is a read. -/
theorem references_uniform (u : UniformName) :
    references ("u." ++ u.text) = [.read u.text.toList] := by
  unfold references
  rw [String.toList_append]
  show Token.references .other (tokens (['u'] ++ '.' :: u.text.toList)) = _
  rw [tokens_append_symbol rfl, tokens_word u.continuesName_text u.text_ne_nil]
  have hglobal : isGlobal ['u'] = false := by decide
  simp [tokens, Token.push, Token.references, Reference.ofWord, Lead.next, isGlobal_uniform,
    hglobal, continuesName]

theorem isInert_of_isDigit {c : Char} (h : c.isDigit) : isInert c := by
  simp only [isInert, Bool.and_eq_true, decide_eq_true_eq]
  refine ⟨⟨⟨?_, ?_⟩, ?_⟩, ?_⟩ <;> rintro rfl <;> exact absurd h (by decide)

/-- No literal refers to anything. -/
theorem isInert_literal (x : Single) : ∀ c, c ∈ (Expression.literalText x).toList → isInert c := by
  have htext : ∀ c, c ∈ (NumberStyle.floating.text x).toList → isInert c := by
    intro c hc
    rcases NumberStyle.mem_text hc with hc | hc
    · exact isInert_of_isDigit hc
    · have hletters : ['-', '+', '.', 'e', 'N', 'a', 'i', 'n', 'f'].all isInert := rfl
      exact List.all_eq_true.mp hletters c hc
  intro c hc
  simp only [Expression.literalText] at hc
  split at hc
  · exact htext c hc
  · rw [String.toList_append] at hc
    rcases List.mem_append.mp hc with hc | hc
    · exact htext c hc
    · have hfraction : ".0".toList.all isInert := rfl
      exact List.all_eq_true.mp hfraction c hc

namespace Expression

/-- Whether a text ends with a letter is up to its last part. -/
theorem getLast?_append_ne {s t : String} (hs : s.toList.getLast? ≠ some 'u')
    (ht : t.toList.getLast? ≠ some 'u') : (s ++ t).toList.getLast? ≠ some 'u' := by
  rw [String.toList_append, List.getLast?_append]
  cases h : t.toList.getLast? <;> simp_all

theorem getLast?_append_ne_of_any (s : String) {t : String}
    (ht : t.toList.getLast?.any (· ≠ 'u')) : (s ++ t).toList.getLast? ≠ some 'u' := by
  obtain ⟨c, hlast, hc⟩ := Option.any_eq_true _ _ |>.mp ht
  rw [String.toList_append, List.getLast?_append, hlast]
  simpa using hc

theorem getLast?_enclose_ne {text : String} (h : text.toList.getLast? ≠ some 'u')
    (asked level : Nat) : (enclose asked level text).toList.getLast? ≠ some 'u' := by
  unfold enclose
  split
  · exact getLast?_append_ne_of_any _ rfl
  · exact h

theorem isInert_components (cs : List Component) :
    ∀ c, c ∈ (String.ofList (cs.map Component.toChar)).toList → isInert c := by
  intro c hc
  rw [String.toList_ofList] at hc
  obtain ⟨component, _, rfl⟩ := List.mem_map.mp hc
  cases component <;> rfl

theorem getLast?_ne_of_isInert {s : String} (h : ∀ c, c ∈ s.toList → isInert c) :
    s.toList.getLast? ≠ some 'u' :=
  fun hlast => absurd (h 'u' (List.mem_of_getLast? hlast)) (by decide)

/-- So no component of an expression is taken for a uniform. -/
theorem getLast?_text_ne : (e : Expression) → e.text.toList.getLast? ≠ some 'u'
  | literal x => getLast?_ne_of_isInert (isInert_literal x)
  | var x => by
    cases x with
    | named x => cases x <;> decide
    | _ => decide
  | uniform name => by
    have hrole : name.role.name.toList.getLast? ≠ some 'u' := by
      cases name.role <;> decide
    exact getLast?_append_ne (by decide)
      (getLast?_append_ne (getLast?_append_ne_of_any _ rfl) hrole)
  | components e cs =>
    getLast?_append_ne
      (getLast?_append_ne (getLast?_enclose_ne (getLast?_text_ne e) 3 e.level) (by decide))
      (getLast?_ne_of_isInert (isInert_components cs))
  | binary op left right =>
    getLast?_append_ne (getLast?_append_ne_of_any _ rfl)
      (getLast?_enclose_ne (getLast?_text_ne right) (op.level + 1) right.level)
  | group e => getLast?_append_ne_of_any _ rfl
  | builtin f arguments => getLast?_append_ne_of_any _ rfl
  | call f input coords => getLast?_append_ne_of_any _ rfl

/-- Parentheses refer to nothing. -/
theorem references_enclose (asked level : Nat) (text : String) :
    references (enclose asked level text) = references text := by
  unfold enclose
  split
  · rw [references_append_blank _ rfl rfl, references_blank_append rfl rfl]
  · rfl

mutual

/-- The text of an expression refers to what the expression is made of. -/
theorem references_text : (e : Expression) → references e.text = e.uses
  | literal x => references_eq_nil (isInert_literal x)
  | var x => by
    cases x with
    | named x => cases x <;> rfl
    | _ => rfl
  | uniform name => references_uniform name
  | components e cs => by
    rw [text, references_append_point (getLast?_enclose_ne (getLast?_text_ne e) 3 e.level),
      references_enclose, references_text e, references_eq_nil (isInert_components cs),
      List.append_nil]
    rfl
  | binary op left right => by
    have hop : references op.text = [] := by cases op <;> rfl
    rw [text, references_separated rfl rfl rfl, references_separated rfl rfl rfl, hop,
      List.append_nil, references_enclose, references_enclose, references_text left,
      references_text right]
    rfl
  | group e => by
    have henclosed := references_enclose 1 0 e.text
    rw [references_text e] at henclosed
    exact henclosed
  | builtin f arguments => by
    have hname : references (f.text ++ "(") = [] := by cases f <;> rfl
    rw [text, references_append_blank _ rfl rfl,
      references_blank_append (endsApart_append _ rfl) hname, references_intercalate arguments]
    rfl
  | call f input coords => by
    rw [text, references_append_blank _ rfl rfl, references_separated rfl rfl rfl,
      references_append_of_endsApart (endsApart_append _ rfl), references_function,
      references_text input, references_text coords]
    rfl

/-- A list of arguments refers to what the arguments refer to. -/
theorem references_intercalate :
    (es : List Expression) → references (", ".intercalate (texts es)) = usesOfAll es
  | [] => rfl
  | [e] => by
    rw [texts, texts, String.intercalate_singleton, references_text e]
    simp [usesOfAll]
  | e :: e' :: rest => by
    have hrest := references_intercalate (e' :: rest)
    rw [texts] at hrest
    rw [texts, texts, String.intercalate_cons_cons, references_separated rfl rfl rfl, hrest,
      references_text e]
    rfl

end

end Expression

def Statement.uses : Statement → List Reference
  | declare _ e | declareVar _ e | assign _ e | assignComponent _ _ e | result e => e.uses

/-- A statement refers to what its expressions refer to. -/
theorem Statement.references_text (s : Statement) : references s.text = s.uses := by
  -- What stands in front of the expression names local values only.
  have hassigned : ∀ (front : String) (e : Expression), references front = [] →
      references (front ++ " = " ++ e.text ++ ";") = e.uses := by
    intro front e hfront
    rw [references_append_blank _ rfl rfl, references_separated rfl rfl rfl, hfront,
      e.references_text, List.nil_append]
  cases s with
  | declare x e => exact hassigned _ e (by cases x <;> rfl)
  | declareVar x e => exact hassigned _ e (by cases x <;> rfl)
  | assign x e => exact hassigned _ e (by cases x <;> rfl)
  | assignComponent x c e => exact hassigned _ e (by cases x <;> cases c <;> rfl)
  | result e =>
    rw [text, references_append_blank _ rfl rfl, references_blank_append rfl rfl, e.references_text]
    rfl

example : references "let c = fp2(u.fp3_color * sk_dst_color.a, _coords);" =
    [.call "fp2".toList, .read "fp3_color".toList, .global "sk_dst_color".toList] := by
  decide +kernel

/-- Texts that end with symbols refer to what each of them refers to. -/
theorem references_join {α : Type} {text : α → String} (h : ∀ x, endsApart (text x)) (xs : List α) :
    references (String.join (xs.map text)) = xs.flatMap fun x => references (text x) := by
  induction xs with
  | nil => rfl
  | cons x xs ih =>
    rw [List.map_cons, String.join_cons, references_append_of_endsApart (h x), ih,
      List.flatMap_cons]

namespace GeneratedFunction

/-- What stands between the braces of the function. -/
def bodyText (f : GeneratedFunction) : String :=
  String.join (f.body.map fun statement => "    " ++ statement.text ++ "\n")

theorem text_eq (f : GeneratedFunction) :
    f.text = "fn " ++ f.name.text ++ signature ++ f.bodyText ++ "\x7d\n" := rfl

/-- A body refers to what its statements refer to. -/
theorem references_bodyText (f : GeneratedFunction) :
    references f.bodyText = f.body.flatMap Statement.uses := by
  rw [bodyText, references_join fun _ => endsApart_append _ rfl]
  congr 1
  funext statement
  rw [references_append_blank _ rfl rfl, references_blank_append rfl rfl, statement.references_text]

end GeneratedFunction

end PixelEffect.Shader
