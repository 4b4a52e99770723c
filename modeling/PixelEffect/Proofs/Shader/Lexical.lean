import PixelEffect.Proofs.Shader.Names
import PixelEffect.Shader.Program

namespace PixelEffect.Shader

open ProgramOptions (continuesName isFunctionName)

/-- A word is a longest run of characters that names consist of. Any other character stands for
itself, a blank too. -/
inductive Token
  | word (w : List Char)
  | symbol (c : Char)
deriving DecidableEq

/-- Puts a character in front of tokens. -/
def Token.push (c : Char) (tokens : List Token) : List Token :=
  if continuesName c then
    match tokens with
    | [] => [word [c]]
    | word w :: rest => word (c :: w) :: rest
    | symbol d :: rest => word [c] :: symbol d :: rest
  else symbol c :: tokens

def tokens (text : List Char) : List Token := text.foldr Token.push []

/-- What a word of a text refers to. -/
inductive Reference
  /-- A name like those of the generated functions, in front of an opening parenthesis. -/
  | call (name : List Char)
  /-- Any word behind `u.`. -/
  | read (name : List Char)
  /-- The position of the fragment or the color at the destination, wherever it is named. -/
  | global (name : List Char)
  /-- Any word in front of a colon. -/
  | declaration (name : List Char)
deriving DecidableEq

/-- What stands in front of a token, as far as it matters. -/
inductive Lead
  | other
  /-- The word `u`. -/
  | uniforms
  /-- The word `u` and a point. -/
  | point
deriving DecidableEq

def Lead.next : Lead → Token → Lead
  | _, .word w => if w = ['u'] then uniforms else other
  | uniforms, .symbol c => if c = '.' then point else other
  | _, .symbol _ => other

/-- The values that the renderer provides. -/
def isGlobal (w : List Char) : Bool :=
  w = Variable.fragCoord.text.toList || w = Variable.destColor.text.toList

/-- What a word refers to that stands between others. -/
def Reference.ofWord (lead : Lead) (w : List Char) (next : Option Token) : List Reference :=
  (if lead = .point then [read w] else [])
    ++ (if isFunctionName w && next = some (.symbol '(') then [call w] else [])
    ++ (if next = some (.symbol ':') then [declaration w] else [])
    ++ (if isGlobal w then [global w] else [])

def Token.references : Lead → List Token → List Reference
  | _, [] => []
  | lead, .word w :: rest =>
    Reference.ofWord lead w rest.head? ++ references (lead.next (.word w)) rest
  | lead, .symbol c :: rest => references (lead.next (.symbol c)) rest

/-- Everything that a text refers to, in order. -/
def references (text : String) : List Reference := Token.references .other (tokens text.toList)

section

variable {c : Char} {w s t : List Char}

theorem Token.push_symbol (hc : continuesName c = false) (ts : List Token) :
    push c ts = symbol c :: ts := by
  unfold push
  rw [if_neg (by simp [hc])]

/-- A symbol is a token of its own. -/
theorem tokens_symbol (hc : continuesName c = false) (t : List Char) :
    tokens (c :: t) = .symbol c :: tokens t :=
  Token.push_symbol hc _

/-- No word reaches across a symbol. -/
theorem tokens_append_symbol (hc : continuesName c = false) (s t : List Char) :
    tokens (s ++ c :: t) = tokens s ++ Token.symbol c :: tokens t := by
  induction s with
  | nil => exact tokens_symbol hc t
  | cons d s ih =>
    have hpush : ∀ ts : List Token, Token.push d (ts ++ Token.symbol c :: tokens t) =
        Token.push d ts ++ Token.symbol c :: tokens t := by
      intro ts
      unfold Token.push
      split
      · obtain _ | ⟨_ | _, _⟩ := ts <;> rfl
      · rfl
    show Token.push d (tokens (s ++ c :: t)) = Token.push d (tokens s) ++ Token.symbol c :: tokens t
    rw [ih, hpush]

/-- A name is one token. -/
theorem tokens_word (hw : ∀ c, c ∈ w → continuesName c) (hne : w ≠ []) :
    tokens w = [Token.word w] := by
  induction w with
  | nil => exact absurd rfl hne
  | cons c w ih =>
    rw [List.forall_mem_cons] at hw
    show Token.push c (tokens w) = _
    cases w with
    | nil => exact if_pos hw.1
    | cons d w =>
      rw [ih hw.2 (List.cons_ne_nil _ _)]
      exact if_pos hw.1

theorem tokens_word_append (hw : ∀ c, c ∈ w → continuesName c) (hne : w ≠ [])
    (hc : continuesName c = false) (t : List Char) :
    tokens (w ++ c :: t) = .word w :: .symbol c :: tokens t := by
  rw [tokens_append_symbol hc, tokens_word hw hne, List.singleton_append]

/-- The last word of a text ends like the text. -/
theorem tokens_concat (hc : continuesName c) (s : List Char) :
    ∃ ts w, tokens (s ++ [c]) = ts ++ [Token.word (w ++ [c])] := by
  induction s with
  | nil => exact ⟨[], [], by rw [List.nil_append, tokens_word (by simpa using hc) (by simp)]; rfl⟩
  | cons d s ih =>
    obtain ⟨ts, w, hs⟩ := ih
    show ∃ ts w, Token.push d (tokens (s ++ [c])) = ts ++ [Token.word (w ++ [c])]
    rw [hs]
    unfold Token.push
    split
    · obtain _ | ⟨_ | e, ts⟩ := ts
      · exact ⟨[], d :: w, rfl⟩
      · exact ⟨.word (d :: _) :: ts, w, rfl⟩
      · exact ⟨.word [d] :: .symbol e :: ts, w, rfl⟩
    · exact ⟨.symbol d :: ts, w, rfl⟩

/-- A text that does not end with the letter `u` does not end with the word either. -/
theorem getLast?_tokens_ne (hs : s.getLast? ≠ some 'u') :
    (tokens s).getLast? ≠ some (.word ['u']) := by
  rcases List.eq_nil_or_concat s with rfl | ⟨init, c, rfl⟩
  · simp [tokens]
  · rw [List.concat_eq_append] at hs ⊢
    cases hc : continuesName c with
    | false =>
      rw [tokens_append_symbol hc]
      simp [tokens]
    | true =>
      obtain ⟨ts, w, hts⟩ := tokens_concat hc init
      have hne : c ≠ 'u' := by simpa using hs
      rw [hts]
      cases w <;> simp [hne]

/-- Tokens have no characters that the text does not have. -/
theorem mem_of_mem_tokens {t : Token} (ht : t ∈ tokens s) :
    (∀ w, t = .word w → ∀ c, c ∈ w → c ∈ s) ∧ ∀ c, t = .symbol c → c ∈ s := by
  induction s generalizing t with
  | nil => cases ht
  | cons d s ih =>
    have hrest : ∀ {t}, t ∈ tokens s → (∀ w, t = .word w → ∀ c, c ∈ w → c ∈ d :: s) ∧
        ∀ c, t = .symbol c → c ∈ d :: s := fun ht =>
      ⟨fun w hw c hc => List.mem_cons_of_mem _ ((ih ht).1 w hw c hc),
        fun c hc => List.mem_cons_of_mem _ ((ih ht).2 c hc)⟩
    replace ht : t ∈ Token.push d (tokens s) := ht
    unfold Token.push at ht
    generalize tokens s = ts at ht hrest
    split at ht
    · obtain _ | ⟨v | e, ts⟩ := ts
      · cases List.mem_singleton.mp ht
        simp
      · rcases List.mem_cons.mp ht with rfl | ht
        · have hv := (hrest List.mem_cons_self).1 v rfl
          simp_all
        · exact hrest (List.mem_cons_of_mem _ ht)
      · rcases List.mem_cons.mp ht with rfl | ht
        · simp
        · exact hrest ht
    · rcases List.mem_cons.mp ht with rfl | ht
      · simp
      · exact hrest ht

end

namespace Lead

theorem next_symbol {c : Char} (hc : c ≠ '.') (lead : Lead) : lead.next (.symbol c) = .other := by
  cases lead <;> simp [next, hc]

theorem next_point {lead : Lead} (h : lead ≠ .uniforms) : lead.next (.symbol '.') = .other := by
  cases lead <;> first | rfl | exact absurd rfl h

theorem foldl_next_ne {ts : List Token} (h : ts.getLast? ≠ some (.word ['u'])) :
    ts.foldl next .other ≠ .uniforms := by
  rcases List.eq_nil_or_concat ts with rfl | ⟨init, t, rfl⟩
  · decide
  · rw [List.concat_eq_append] at h ⊢
    rw [List.foldl_append]
    generalize init.foldl next .other = lead
    cases t with
    | word w =>
      have hw : w ≠ ['u'] := by simpa using h
      cases lead <;> simp [next, hw]
    | symbol c =>
      cases lead with
      | uniforms => by_cases hc : c = '.' <;> simp [next, hc]
      | other | point => simp [next]

end Lead

namespace Token

variable {c : Char}

/-- What a text refers to is known up to a symbol, whatever follows the symbol. -/
theorem references_append_symbol (lead : Lead) (ts : List Token) (c : Char) (us : List Token) :
    references lead (ts ++ Token.symbol c :: us) = references lead (ts ++ [Token.symbol c])
      ++ references ((ts.foldl Lead.next lead).next (.symbol c)) us := by
  induction ts generalizing lead with
  | nil => rfl
  | cons t ts ih =>
    have hhead : (ts ++ symbol c :: us).head? = (ts ++ [symbol c]).head? := by
      cases ts <;> rfl
    cases t with
    | word w =>
      rw [List.cons_append, List.cons_append, references, references, hhead, ih, List.append_assoc]
      rfl
    | symbol d => exact ih _

/-- Only two symbols make a reference of the word in front of them. -/
theorem references_concat (hcall : c ≠ '(') (hcolon : c ≠ ':') (lead : Lead) (ts : List Token) :
    references lead (ts ++ [Token.symbol c]) = references lead ts := by
  induction ts generalizing lead with
  | nil => rfl
  | cons t ts ih =>
    cases t with
    | word w =>
      have hlast : Reference.ofWord lead w (some (.symbol c)) = Reference.ofWord lead w none := by
        simp [Reference.ofWord, hcall, hcolon]
      cases ts with
      | nil => simpa [references] using hlast
      | cons t ts => simpa [references] using ih _
    | symbol d => simpa [references] using ih _

end Token

/-- The text ends with a symbol that nothing behind it belongs to. -/
def endsApart (s : String) : Bool := s.toList.getLast?.any fun c => !continuesName c && c ≠ '.'

/-- The text starts with a symbol that belongs to nothing in front of it. -/
def startsApart (s : String) : Bool :=
  s.toList.head?.any fun c => !continuesName c && c ≠ '.' && c ≠ '(' && c ≠ ':'

section

variable {s t : String}

theorem endsApart_append (s : String) (h : endsApart t) : endsApart (s ++ t) := by
  obtain ⟨c, hlast, hc⟩ := Option.any_eq_true _ _ |>.mp h
  simpa [endsApart, String.toList_append, List.getLast?_append, hlast] using hc

theorem startsApart_append (h : startsApart s) (t : String) : startsApart (s ++ t) := by
  obtain ⟨c, hhead, hc⟩ := Option.any_eq_true _ _ |>.mp h
  simpa [startsApart, String.toList_append, List.head?_append, hhead] using hc

/-- A text that ends apart refers to the same, whatever follows it. -/
theorem references_append_of_endsApart (h : endsApart s) (t : String) :
    references (s ++ t) = references s ++ references t := by
  obtain ⟨c, hlast, hc⟩ := Option.any_eq_true _ _ |>.mp h
  simp only [Bool.and_eq_true, Bool.not_eq_true', decide_eq_true_eq] at hc
  obtain ⟨init, hinit⟩ := List.getLast?_eq_some_iff.mp hlast
  unfold references
  rw [String.toList_append, hinit, List.append_assoc, List.singleton_append,
    tokens_append_symbol hc.1, tokens_append_symbol hc.1, Token.references_append_symbol,
    Lead.next_symbol hc.2]
  rfl

/-- A text that starts apart refers to the same, whatever precedes it. -/
theorem references_append_of_startsApart (s : String) (h : startsApart t) :
    references (s ++ t) = references s ++ references t := by
  obtain ⟨c, hhead, hc⟩ := Option.any_eq_true _ _ |>.mp h
  simp only [Bool.and_eq_true, Bool.not_eq_true', decide_eq_true_eq] at hc
  obtain ⟨⟨⟨hc, hpoint⟩, hcall⟩, hcolon⟩ := hc
  obtain ⟨rest, hrest⟩ := List.head?_eq_some_iff.mp hhead
  unfold references
  rw [String.toList_append, hrest, tokens_append_symbol hc, tokens_symbol hc,
    Token.references_append_symbol, Token.references_concat hcall hcolon, Lead.next_symbol hpoint,
    Token.references, Lead.next_symbol hpoint]

/-- A text that refers to nothing can be left out in front. -/
theorem references_blank_append (h : endsApart s) (hs : references s = []) (t : String) :
    references (s ++ t) = references t := by
  rw [references_append_of_endsApart h, hs, List.nil_append]

theorem references_append_blank (s : String) (h : startsApart t) (ht : references t = []) :
    references (s ++ t) = references s := by
  rw [references_append_of_startsApart s h, ht, List.append_nil]

/-- Two texts with a separator between them refer to what they refer to alone. -/
theorem references_separated {separator : String} (hstart : startsApart separator)
    (hend : endsApart separator) (h : references separator = []) (s t : String) :
    references (s ++ separator ++ t) = references s ++ references t := by
  rw [references_append_of_endsApart (endsApart_append s hend), references_append_blank s hstart h]

/-- What stands behind a point is a member of the uniforms only behind their name. -/
theorem references_append_point (hs : s.toList.getLast? ≠ some 'u') (t : String) :
    references (s ++ "." ++ t) = references s ++ references t := by
  have hlead := Lead.next_point (Lead.foldl_next_ne (getLast?_tokens_ne hs))
  unfold references
  rw [String.toList_append, String.toList_append, List.append_assoc]
  show Token.references .other (tokens (s.toList ++ '.' :: t.toList)) = _
  rw [tokens_append_symbol rfl, Token.references_append_symbol, hlead,
    Token.references_concat (by decide) (by decide)]

/-- The characters of numbers, operators and types. -/
def isInert (c : Char) : Bool := c ≠ 'u' && c ≠ '_' && c ≠ '(' && c ≠ ':'

/-- A text without letters that names begin with refers to nothing. -/
theorem references_eq_nil (h : ∀ c, c ∈ s.toList → isInert c) : references s = [] := by
  have hwords : ∀ w, .word w ∈ tokens s.toList → w ≠ ['u'] ∧ isGlobal w = false := by
    intro w hw
    have hinert := fun c hc => h c ((mem_of_mem_tokens hw).1 w rfl c hc)
    have hscore : '_' ∉ w := fun hc => absurd (hinert _ hc) (by decide)
    refine ⟨?_, Bool.eq_false_iff.mpr fun hglobal => ?_⟩
    · rintro rfl
      exact absurd (hinert 'u' (by simp)) (by decide)
    · rcases Bool.or_eq_true _ _ |>.mp hglobal with hw | hw <;>
        exact hscore (of_decide_eq_true hw ▸ by decide)
  have hsymbols : ∀ c, .symbol c ∈ tokens s.toList → c ≠ '(' ∧ c ≠ ':' := by
    intro c hc
    have hinert := h c ((mem_of_mem_tokens hc).2 c rfl)
    constructor <;> rintro rfl <;> exact absurd hinert (by decide)
  unfold references
  generalize tokens s.toList = ts at hwords hsymbols
  induction ts with
  | nil => rfl
  | cons t ts ih =>
    have ih := ih (fun w hw => hwords w (List.mem_cons_of_mem _ hw))
      (fun c hc => hsymbols c (List.mem_cons_of_mem _ hc))
    cases t with
    | symbol c => exact ih
    | word w =>
      obtain ⟨hw, hglobal⟩ := hwords w List.mem_cons_self
      have hnext : ∀ c, ts.head? = some (.symbol c) → c ≠ '(' ∧ c ≠ ':' :=
        fun c hc => hsymbols c (List.mem_cons_of_mem _ (List.mem_of_head? hc))
      have hcall : ts.head? ≠ some (.symbol '(') := fun h => (hnext _ h).1 rfl
      have hcolon : ts.head? ≠ some (.symbol ':') := fun h => (hnext _ h).2 rfl
      simp [Token.references, Reference.ofWord, Lead.next, hw, hglobal, hcall, hcolon, ih]

/-- A word in front of an opening parenthesis calls a function if it is the name of one. -/
theorem references_applied {w : List Char} (hw : ∀ c, c ∈ w → continuesName c) (hne : w ≠ [])
    (hglobal : isGlobal w = false) (hs : s.toList = w) :
    references (s ++ "(") = if isFunctionName w then [.call w] else [] := by
  unfold references
  rw [String.toList_append, hs]
  show Token.references .other (tokens (w ++ ['('])) = _
  rw [tokens_word_append hw hne rfl]
  simp [Token.references, Reference.ofWord, hglobal, tokens]

/-- A word in front of a colon is declared. -/
theorem references_declared {w : List Char} (hw : ∀ c, c ∈ w → continuesName c) (hne : w ≠ [])
    (hglobal : isGlobal w = false) (hs : s.toList = w) :
    references (s ++ ": ") = [.declaration w] := by
  unfold references
  rw [String.toList_append, hs]
  show Token.references .other (tokens (w ++ ':' :: [' '])) = _
  rw [tokens_word_append hw hne rfl]
  simp [Token.references, Reference.ofWord, hglobal, tokens, Token.push, continuesName]

end

end PixelEffect.Shader
