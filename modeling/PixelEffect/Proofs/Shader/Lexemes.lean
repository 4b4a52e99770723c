import PixelEffect.Proofs.Shader.Literals
import PixelEffect.Proofs.Shader.Reader

namespace PixelEffect

open Shader

namespace Shader

open ProgramOptions (continuesName)

section

variable {c : Char} {w v : List Char} {ts us : List Token} {s t : String}

/-- A point within a number is no end of the word. -/
theorem Token.join_word_of_goesOn (h : goesOn w c) :
    join (.word w) [.symbol c, .word v] = [Token.word (w ++ c :: v)] := by
  rw [join, if_pos h]

/-- A symbol that no number goes on behind keeps what is in front of it as it is. -/
theorem Token.join_append {t : Token} (h : us ≠ [] ∨ ∀ w, t = .word w → goesOn w c = false)
    (rest : List Token) :
    join t (us ++ Token.symbol c :: rest) = join t us ++ Token.symbol c :: rest := by
  cases t with
  | symbol d => rfl
  | word w =>
    match us with
    | [] =>
      have hstop : goesOn w c = false := h.resolve_left (not_not.mpr rfl) w rfl
      cases rest with
      | nil => rfl
      | cons t rest =>
        cases t with
        | word v => exact if_neg (by simp [hstop])
        | symbol d => rfl
    | [.word v] => rfl
    | [.symbol d] => rfl
    | .word v :: t :: us => rfl
    | .symbol d :: .symbol e :: us => rfl
    | .symbol d :: .word v :: us =>
      simp only [List.cons_append, join]
      split <;> rfl

theorem Token.foldr_join_ne_nil (h : ts ≠ []) : ts.foldr join [] ≠ [] := by
  obtain ⟨t, ts, rfl⟩ := List.exists_cons_of_ne_nil h
  rw [List.foldr_cons]
  unfold join
  split
  · split <;> exact List.cons_ne_nil _ _
  · exact List.cons_ne_nil _ _

/-- No number reaches across a symbol, unless the last word goes on there. -/
theorem Token.foldr_join_append
    (h : ∀ w, ts.getLast? = some (.word w) → goesOn w c = false) (us : List Token) :
    (ts ++ Token.symbol c :: us).foldr join [] =
      ts.foldr join [] ++ Token.symbol c :: us.foldr join [] := by
  induction ts with
  | nil => rfl
  | cons t ts ih =>
    by_cases hts : ts = []
    · have hstop : ∀ w, t = .word w → goesOn w c = false := by
        intro w hw
        exact h w (by rw [hts, hw]; rfl)
      rw [hts]
      exact @join_append c [] t (.inr hstop) _
    · have hlast : (t :: ts).getLast? = ts.getLast? := by
        obtain ⟨u, ts, rfl⟩ := List.exists_cons_of_ne_nil hts
        exact List.getLast?_cons_cons
      rw [List.cons_append, List.foldr_cons, ih (hlast ▸ h),
        join_append (.inl (foldr_join_ne_nil hts)), List.foldr_cons]

/-- A text can be cut in front of a symbol that does not belong to a number. -/
theorem lexemes_append_symbol {rest : List Char} (ht : t.toList = c :: rest)
    (hc : continuesName c = false)
    (hlast : ∀ w, (tokens s.toList).getLast? = some (.word w) → goesOn w c = false) :
    lexemes (s ++ t) = lexemes s ++ lexemes t := by
  have hfoldr : (tokens t.toList).foldr Token.join [] =
      .symbol c :: (tokens rest).foldr Token.join [] := by
    rw [ht, tokens_symbol hc]
    rfl
  unfold lexemes
  rw [hfoldr, String.toList_append, ht, tokens_append_symbol hc, Token.foldr_join_append hlast,
    List.filter_append]

/-- The symbol is never part of a number. -/
def parts (c : Char) : Bool := !continuesName c && c ≠ '.' && c ≠ '-' && c ≠ '+'

theorem goesOn_of_parts (hc : parts c) (w : List Char) : goesOn w c = false := by
  simp only [parts, Bool.and_eq_true, Bool.not_eq_true', decide_eq_true_eq] at hc
  simp [goesOn, hc]

/-- What parts words is no part of a name. -/
theorem continuesName_of_parts (hc : parts c) : continuesName c = false := by
  simp only [parts, Bool.and_eq_true, Bool.not_eq_true'] at hc
  exact hc.1.1.1

/-- The text begins with a symbol that parts words. -/
def startsParted (s : String) : Bool := s.toList.head?.any parts

/-- The text ends with a symbol that parts words. -/
def endsParted (s : String) : Bool := s.toList.getLast?.any parts

theorem endsParted_append (s : String) (h : endsParted t) : endsParted (s ++ t) := by
  obtain ⟨c, hlast, hc⟩ := Option.any_eq_true _ _ |>.mp h
  simpa [endsParted, String.toList_append, List.getLast?_append, hlast] using hc

theorem startsParted_append (h : startsParted s) (t : String) : startsParted (s ++ t) := by
  obtain ⟨c, hhead, hc⟩ := Option.any_eq_true _ _ |>.mp h
  simpa [startsParted, String.toList_append, List.head?_append, hhead] using hc

/-- A text is cut in front of a symbol that parts words. -/
theorem lexemes_append_of_startsParted (s : String) (h : startsParted t) :
    lexemes (s ++ t) = lexemes s ++ lexemes t := by
  obtain ⟨c, hhead, hc⟩ := Option.any_eq_true _ _ |>.mp h
  obtain ⟨rest, hrest⟩ := List.head?_eq_some_iff.mp hhead
  exact lexemes_append_symbol hrest (continuesName_of_parts hc) fun w _ => goesOn_of_parts hc w

/-- A text is cut behind a symbol that parts words. -/
theorem lexemes_append_of_endsParted (h : endsParted s) (t : String) :
    lexemes (s ++ t) = lexemes s ++ lexemes t := by
  obtain ⟨c, hlast, hc⟩ := Option.any_eq_true _ _ |>.mp h
  obtain ⟨init, hinit⟩ := List.getLast?_eq_some_iff.mp hlast
  have hname := continuesName_of_parts hc
  have hstop := fun (w : List Char) (_ : (tokens init).getLast? = some (.word w)) =>
    goesOn_of_parts hc w
  unfold lexemes
  rw [String.toList_append, hinit, List.append_assoc, List.singleton_append,
    tokens_append_symbol hname, tokens_append_symbol hname, Token.foldr_join_append hstop,
    Token.foldr_join_append hstop, ← List.filter_append, List.append_assoc]
  rfl

/-- What stands between two texts parts them. -/
theorem lexemes_parted {separator : String} (hstart : startsParted separator)
    (hend : endsParted separator) (s t : String) :
    lexemes (s ++ separator ++ t) = lexemes s ++ lexemes separator ++ lexemes t := by
  rw [lexemes_append_of_endsParted (endsParted_append s hend),
    lexemes_append_of_startsParted s hstart]

/-- A name is one word. -/
theorem lexemes_word (hw : ∀ c, c ∈ s.toList → continuesName c) (hne : s.toList ≠ []) :
    lexemes s = [Token.word s.toList] := by
  unfold lexemes
  rw [tokens_word hw hne]
  rfl

/-- A word that is no number, a point and another word. -/
theorem lexemes_member (hs : s.toList = w ++ '.' :: v) (hw : ∀ c, c ∈ w → continuesName c)
    (hwne : w ≠ []) (hnumber : startsNumber w = false) (hv : ∀ c, c ∈ v → continuesName c)
    (hvne : v ≠ []) : lexemes s = [Token.word w, .symbol '.', .word v] := by
  unfold lexemes
  rw [hs, tokens_append_symbol rfl, tokens_word hw hwne, tokens_word hv hvne]
  simp [Token.join, goesOn, hnumber, Token.isBlank]

/-- Lines are read one after the other. -/
theorem lexemes_join {α : Type} {line : α → String} (h : ∀ x, endsParted (line x))
    (xs : List α) :
    lexemes (String.join (xs.map line)) = xs.flatMap fun x => lexemes (line x) := by
  induction xs with
  | nil => rfl
  | cons x xs ih =>
    rw [List.map_cons, String.join_cons, lexemes_append_of_endsParted (h x), ih,
      List.flatMap_cons]

end

section

variable {c : Char} {w v ds : List Char}

/-- The text is one word, put together from the parts of a number if need be. -/
def OneWord (w : List Char) : Prop := (tokens w).foldr Token.join [] = [Token.word w]

theorem oneWord_of_name (hw : ∀ c, c ∈ w → continuesName c) (hne : w ≠ []) : OneWord w := by
  unfold OneWord
  rw [tokens_word hw hne]
  rfl

/-- A number that goes on with a word. -/
theorem OneWord.append (hw : ∀ c, c ∈ w → continuesName c) (hne : w ≠ [])
    (hc : continuesName c = false) (h : goesOn w c) (hv : OneWord v) : OneWord (w ++ c :: v) := by
  unfold OneWord at hv ⊢
  rw [tokens_append_symbol hc, tokens_word hw hne, List.singleton_append, List.foldr_cons,
    List.foldr_cons, hv]
  exact Token.join_word_of_goesOn h

theorem continuesName_of_isDigit (hc : c.isDigit) : continuesName c := by
  simp [continuesName, Char.isAlphanum, hc]

/-- A text that begins with a digit begins with a number. -/
theorem startsNumber_append (hds : ∀ c, c ∈ ds → c.isDigit) (hne : ds ≠ []) (w : List Char) :
    startsNumber (ds ++ w) := by
  obtain ⟨c, ds, rfl⟩ := List.exists_cons_of_ne_nil hne
  exact hds c List.mem_cons_self

end

end Shader

namespace Numeral

open ProgramOptions (continuesName)

variable {n : Numeral} {ds : List Char}

/-- Digits and an exponent behind them. -/
theorem IsFloat.oneWord_power (h : n.IsFloat) (hds : ∀ c, c ∈ ds → c.isDigit) (hne : ds ≠ []) :
    OneWord (ds ++ n.powerChars) := by
  have hletter : ∀ c, c ∈ ds ++ ['e'] → continuesName c := by
    intro c hc
    rcases List.mem_append.mp hc with hc | hc
    · exact continuesName_of_isDigit (hds c hc)
    · rw [List.mem_singleton.mp hc]
      rfl
  have hsigned : ∀ sign, sign = '-' ∨ sign = '+' → goesOn (ds ++ ['e']) sign := by
    intro sign hsign
    simp [goesOn, startsNumber_append hds hne, hsign]
  cases hexponent : n.exponent with
  | none =>
    have hnone : n.powerChars = [] := by simp [powerChars, hexponent]
    rw [hnone, List.append_nil]
    exact oneWord_of_name (fun c hc => continuesName_of_isDigit (hds c hc)) hne
  | some e =>
    obtain ⟨sign, es⟩ := e
    have hes : ∀ c, c ∈ es → continuesName c :=
      fun c hc => continuesName_of_isDigit (h.exponent sign es hexponent c hc)
    have hesne := h.exponent_ne sign es hexponent
    have hpower : n.powerChars = exponentChars (sign, es) := by simp [powerChars, hexponent]
    rw [hpower]
    cases sign with
    | absent =>
      refine oneWord_of_name (fun c hc => ?_) (by simp [hne])
      rw [exponentChars, ← List.singleton_append, ← List.append_assoc] at hc
      exact (List.mem_append.mp hc).elim (hletter c) (hes c)
    | plus =>
      have happend := OneWord.append hletter (by simp) rfl (hsigned '+' (.inr rfl))
        (oneWord_of_name hes hesne)
      simpa [exponentChars] using happend
    | minus =>
      have happend := OneWord.append hletter (by simp) rfl (hsigned '-' (.inl rfl))
        (oneWord_of_name hes hesne)
      simpa [exponentChars] using happend

/-- The numeral without its sign is one word. -/
theorem IsFloat.oneWord (h : n.IsFloat) :
    OneWord (n.whole ++ (n.fractionChars ++ n.powerChars)) := by
  by_cases hfraction : n.fraction = []
  · have hnone : n.fractionChars = [] := by simp [fractionChars, hfraction]
    rw [hnone]
    exact h.oneWord_power h.whole h.whole_ne
  · have hsome : n.fractionChars = '.' :: n.fraction := by simp [fractionChars, hfraction]
    have hstarts := startsNumber_append h.whole h.whole_ne []
    rw [List.append_nil] at hstarts
    rw [hsome, List.cons_append]
    exact OneWord.append (fun c hc => continuesName_of_isDigit (h.whole c hc)) h.whole_ne rfl
      (by simp [goesOn, hstarts]) (h.oneWord_power h.fraction hfraction)

/-- A literal is one word, but for its sign. -/
theorem IsFloat.lexemes_toChars (h : n.IsFloat) :
    lexemes (String.ofList n.toChars) =
      (if n.negative then [.symbol '-'] else [])
        ++ [Token.word (n.whole ++ (n.fractionChars ++ n.powerChars))] := by
  have hword := h.oneWord
  unfold OneWord at hword
  rw [lexemes, String.toList_ofList, toChars_eq]
  cases n.negative with
  | false =>
    rw [if_neg (by decide), if_neg (by decide), List.nil_append, List.nil_append, hword]
    rfl
  | true =>
    rw [if_pos rfl, if_pos rfl, List.singleton_append, tokens_symbol rfl, List.foldr_cons, hword]
    rfl

end Numeral

namespace Shader

/-- A finite number is one word behind its sign, and is read as the number that was written. -/
theorem exists_lexemes_literalText {x : Single} (hx : x.isFinite) :
    ∃ w, startsNumber w ∧
      (lexemes (Expression.literalText x) = [Token.word w] ∧ literal? w = some (.literal x) ∨
        lexemes (Expression.literalText x) = [Token.symbol '-', .word w] ∧
          literal? ('-' :: w) = some (.literal x)) := by
  have hfloat := NumberStyle.isFloat_floating x
  have hlexemes := hfloat.lexemes_toChars
  have hliteral : literal? (NumberStyle.floating.numeral x).toChars = some (.literal x) := by
    have hmark := hfloat.mark_mem
    rw [literal?, if_pos hmark, ← NumberStyle.text_of_isFinite _ hx, Ieee.ofText_text _ hx]
    rfl
  rw [Expression.literalText_of_isFinite hx, hlexemes]
  rw [Numeral.toChars_eq] at hliteral
  generalize NumberStyle.floating.numeral x = n at hfloat hliteral
  refine ⟨n.whole ++ (n.fractionChars ++ n.powerChars),
    startsNumber_append hfloat.whole hfloat.whole_ne _, ?_⟩
  cases hnegative : n.negative with
  | false =>
    rw [hnegative] at hliteral
    exact .inl ⟨rfl, hliteral⟩
  | true =>
    rw [hnegative] at hliteral
    exact .inr ⟨rfl, hliteral⟩

/-- A machine word is read back from its digits. -/
theorem number?_toString (x : UInt32) : number? (toString x).toList = some x := by
  have hdigits : (toString x).toList = Nat.toDigits 10 x.toNat := by
    show (Nat.repr x.toNat).toList = _
    rw [Nat.toList_repr]
  have hvalue : UInt32.ofNat (Nat.ofDigitChars 10 (toString x).toList 0) = x := by
    rw [hdigits]
    simp
  rw [number?, hvalue, if_pos rfl]

end Shader

/-- The name of a function is read back. -/
theorem FunctionName.ofWord?_text (f : FunctionName) : ofWord? f.text.toList = some f := by
  have hvalue : UInt32.ofNat (Nat.ofDigitChars 10 (f.text.toList.drop 2) 0) = f.index := by
    rw [toList_text]
    simp
  rw [ofWord?, hvalue, if_pos rfl]

theorem UniformRole.mem_all (role : UniformRole) : role ∈ all := by
  cases role <;> decide

/-- The name of a uniform is read back, first its owner and then its role. -/
theorem UniformName.ofWord?_text (u : UniformName) : ofWord? u.text.toList = some u := by
  have hdigits : ∀ c, c ∈ u.owner.text.toList → decide (c ≠ '_') := by
    rw [FunctionName.toList_text, List.forall_mem_cons, List.forall_mem_cons]
    refine ⟨rfl, rfl, fun c hc => ?_⟩
    have hdigit : c.isDigit := Nat.isDigit_of_mem_toDigits (by decide) (by decide) hc
    exact decide_eq_true fun hscore => absurd hdigit (hscore ▸ by decide)
  have htext : u.text.toList = u.owner.text.toList ++ '_' :: u.role.name.toList := by
    rw [text, String.toList_append, String.toList_append, List.append_assoc]
    rfl
  have howner : u.text.toList.takeWhile (· ≠ '_') = u.owner.text.toList := by
    rw [htext, List.takeWhile_append_of_pos hdigits]
    simp
  have hrole : UniformRole.all.find?
      (fun role => (mk u.owner role).text.toList = u.text.toList) = some u.role := by
    cases hfind : UniformRole.all.find?
      (fun role => decide ((mk u.owner role).text.toList = u.text.toList)) with
    | none => exact absurd (List.find?_eq_none.mp hfind u.role u.role.mem_all) (by simp)
    | some role =>
      have hsame : (mk u.owner role).text.toList = u.text.toList := by
        simpa using List.find?_some hfind
      rw [← text_injective (String.toList_inj.mp hsame)]
  rw [ofWord?, howner, FunctionName.ofWord?_text]
  show (do return mk u.owner (← _) : Option UniformName) = _
  rw [hrole]
  rfl

/-- The type of a uniform is read back. -/
theorem UniformType.ofTokens?_sourceText (type : UniformType) :
    ofTokens? (lexemes type.sourceText) = some type := by
  cases type <;> decide +kernel

namespace Shader

theorem Local.ofWord?_text (x : Local) : ofWord? x.text.toList = some x := by
  cases x <;> rfl

/-- The names of variables are told apart. -/
theorem Variable.ofWord?_text (x : Variable) : ofWord? x.text.toList = some x := by
  cases x with
  | named x => cases x <;> rfl
  | _ => rfl

theorem Component.ofChar?_toChar (c : Component) : ofChar? c.toChar = some c := by
  cases c <;> rfl

/-- Components are read back letter by letter. -/
theorem Component.mapM_ofChar? (cs : List Component) :
    (cs.map toChar).mapM ofChar? = some cs := by
  induction cs with
  | nil => rfl
  | cons c cs ih =>
    rw [List.map_cons, List.mapM_cons, c.ofChar?_toChar, ih]
    rfl

/-- The names of builtins are told apart. -/
theorem Callee.ofWord?_builtin (f : Builtin) : ofWord? f.text.toList = some (.builtin f) := by
  cases f <;> rfl

/-- No generated function has the name of one of the language. -/
theorem Callee.ofWord?_function (f : FunctionName) :
    ofWord? f.text.toList = some (.function f) := by
  have hbuiltin : Builtin.ofWord? f.text.toList = none := by
    rw [Builtin.ofWord?, List.lookup_eq_none_iff, String.ofList_toList]
    intro entry hentry
    have hhead : entry.1.toList.head? ≠ some 'f' := by
      revert entry
      decide
    have hne : f.text ≠ entry.1 := by
      intro heq
      rw [← heq, FunctionName.toList_text] at hhead
      exact hhead rfl
    simpa using hne
  rw [ofWord?, hbuiltin, FunctionName.ofWord?_text]
  rfl

theorem Variable.continuesName_text (x : Variable) :
    ∀ c, c ∈ x.text.toList → ProgramOptions.continuesName c := by
  have hall : x.text.toList.all ProgramOptions.continuesName := by
    cases x with
    | named x => cases x <;> rfl
    | _ => rfl
  exact List.all_eq_true.mp hall

/-- Variables are no numbers, and none of them is the name of the uniforms. -/
theorem Variable.text_plain (x : Variable) :
    x.text.toList ≠ [] ∧ startsNumber x.text.toList = false ∧ x.text.toList ≠ ['u'] := by
  cases x with
  | named x => cases x <;> decide
  | _ => decide

theorem lexemes_var (x : Variable) : lexemes x.text = [Token.word x.text.toList] :=
  lexemes_word x.continuesName_text x.text_plain.1

theorem lexemes_function (f : FunctionName) : lexemes f.text = [Token.word f.text.toList] :=
  lexemes_word f.continuesName_text f.text_ne_nil

/-- A uniform is a member of the block of uniforms. -/
theorem lexemes_uniform (u : UniformName) :
    lexemes ("u." ++ u.text) = [Token.word ['u'], .symbol '.', .word u.text.toList] := by
  have htext : ("u." ++ u.text).toList = ['u'] ++ '.' :: u.text.toList := by
    rw [String.toList_append]
    rfl
  exact lexemes_member htext (by simp [ProgramOptions.continuesName]) (by simp) rfl
    u.continuesName_text u.text_ne_nil

/-- Components stand behind a point. -/
theorem lexemes_components (x : Variable) {cs : List Component} (hne : cs ≠ []) :
    lexemes (x.text ++ "." ++ String.ofList (cs.map Component.toChar)) =
      [.word x.text.toList, .symbol '.', .word (cs.map Component.toChar)] := by
  have htext : (x.text ++ "." ++ String.ofList (cs.map Component.toChar)).toList =
      x.text.toList ++ '.' :: cs.map Component.toChar := by
    simp [String.toList_append]
  have hcs : ∀ c, c ∈ cs.map Component.toChar → ProgramOptions.continuesName c := by
    intro c hc
    obtain ⟨component, _, rfl⟩ := List.mem_map.mp hc
    cases component <;> rfl
  exact lexemes_member htext x.continuesName_text x.text_plain.1 x.text_plain.2.1 hcs (by simp [hne])

end Shader

end PixelEffect
