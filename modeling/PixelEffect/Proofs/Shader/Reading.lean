import PixelEffect.Proofs.Shader.Expressions
import PixelEffect.Proofs.Shader.Lexemes

namespace PixelEffect.Shader

/-- Parentheses are put by the levels of operators, which are those of the language. -/
theorem Operator.level_eq_tightness (op : Operator) : op.level = op.tightness := by
  cases op <;> rfl

/-- An operand of the tightness is not taken by what stands in front of it. -/
def Awaits (tightness : Nat) : List Frame → Prop
  | .left _ op :: _ => op.tightness < tightness
  | _ => True

/-- Where an operand is awaited, nothing is put together yet. -/
theorem Awaits.collapse {tightness : Nat} {frames : List Frame} (h : Awaits tightness frames)
    (e : Expression) : collapse tightness frames e = (frames, e) := by
  match frames with
  | [] => rfl
  | .left l op :: frames => exact if_neg (Nat.not_le.mpr h)
  | .opened :: frames => rfl
  | .applied f arguments :: frames => rfl

/-- What awaits an operand of one tightness awaits a tighter one. -/
theorem Awaits.mono {tightness tightness' : Nat} {frames : List Frame} (h : Awaits tightness frames)
    (hle : tightness ≤ tightness') : Awaits tightness' frames := by
  match frames with
  | [] => trivial
  | .left l op :: frames => exact Nat.lt_of_lt_of_le h hle
  | .opened :: frames => trivial
  | .applied f arguments :: frames => trivial

/-- Read as an operand of the level, the tokens are the expression. Operators that wait for their
right operands may be left in front of the last operand that was read; to whatever comes next they
are no different from the expression. -/
def Reads (ts : List Token) (level : Nat) (e : Expression) : Prop :=
  ∀ frames, Awaits level frames → ∃ reading last,
    ts.foldlM Reading.step ⟨frames, .start⟩ = some reading ∧
    reading.mode.operand? = some last ∧
    ∀ k, k ≤ level → collapse k reading.frames last = collapse k frames e

/-- Symbols that end statements and blocks. -/
def Token.ends : Token → Bool
  | symbol c => c = ';' || c = '\x7b' || c = '\x7d'
  | word _ => false

namespace Reading

variable {frames : List Frame} {mode : Mode} {e : Expression} {c : Char}

/-- Behind an operand a symbol is read that does not belong to it. -/
theorem step_symbol (h : mode.operand? = some e) (hcall : c ≠ '(') (hbracket : c ≠ '<')
    (hpoint : c ≠ '.') : step ⟨frames, mode⟩ (.symbol c) = next frames e c := by
  cases mode with
  | word w =>
    have hoperand : operand? w = some e := h
    simp [step, hcall, hbracket, hpoint, hoperand]
  | done e' =>
    cases h
    rfl
  | _ => cases h

/-- Behind an operand an operator is read. -/
theorem run_operator (h : mode.operand? = some e) (op : Operator) :
    (lexemes (" " ++ op.text ++ " ")).foldlM step ⟨frames, mode⟩ =
      some (operator frames e op) := by
  cases op with
  | equal =>
    have hequal : lexemes (" " ++ Operator.equal.text ++ " ") =
        [Token.symbol '=', .symbol '='] := rfl
    rw [hequal, List.foldlM_cons, step_symbol h (by decide) (by decide) (by decide)]
    rfl
  | add =>
    have hadd : lexemes (" " ++ Operator.add.text ++ " ") = [Token.symbol '+'] := rfl
    rw [hadd, List.foldlM_cons, step_symbol h (by decide) (by decide) (by decide)]
    rfl
  | sub =>
    have hsub : lexemes (" " ++ Operator.sub.text ++ " ") = [Token.symbol '-'] := rfl
    rw [hsub, List.foldlM_cons, step_symbol h (by decide) (by decide) (by decide)]
    rfl
  | mul =>
    have hmul : lexemes (" " ++ Operator.mul.text ++ " ") = [Token.symbol '*'] := rfl
    rw [hmul, List.foldlM_cons, step_symbol h (by decide) (by decide) (by decide)]
    rfl
  | div =>
    have hdiv : lexemes (" " ++ Operator.div.text ++ " ") = [Token.symbol '/'] := rfl
    rw [hdiv, List.foldlM_cons, step_symbol h (by decide) (by decide) (by decide)]
    rfl

/-- No expression goes on at the end of a statement or at a brace. -/
theorem step_ends {t : Token} (ht : t.ends) (reading : Reading) : step reading t = none := by
  cases t with
  | word w => cases ht
  | symbol c =>
    have hcases : c = ';' ∨ c = '\x7b' ∨ c = '\x7d' := by
      simpa [Token.ends, or_assoc] using ht
    have hnext : ∀ frames e, next frames e c = none := by
      intro frames e
      rcases hcases with rfl | rfl | rfl <;> rfl
    obtain ⟨frames, mode⟩ := reading
    rcases hcases with rfl | rfl | rfl <;> cases mode <;> simp [step, hnext]

end Reading

/-- Parentheses are tokens of their own. -/
theorem lexemes_parens (text : String) :
    lexemes ("(" ++ text ++ ")") = .symbol '(' :: (lexemes text ++ [Token.symbol ')']) := by
  rw [lexemes_append_of_startsParted _ rfl, lexemes_append_of_endsParted rfl]
  rfl

/-- Commas part the texts of arguments. -/
theorem lexemes_intercalate (texts : List String) :
    lexemes (", ".intercalate texts) =
      List.intercalate [Token.symbol ','] (texts.map lexemes) := by
  induction texts with
  | nil => rfl
  | cons s texts ih =>
    cases texts with
    | nil => rw [String.intercalate_singleton, List.map_singleton, List.intercalate_singleton]
    | cons t texts =>
      rw [List.map_cons] at ih
      rw [String.intercalate_cons_cons, lexemes_parted rfl rfl, ih, List.map_cons, List.map_cons,
        List.intercalate_cons_cons]
      rfl

namespace Reads

variable {ts us : List Token} {level level' : Nat} {e l r : Expression}

/-- An expression can stand where a lower level is asked for. -/
theorem mono (h : Reads ts level e) (hle : level' ≤ level) : Reads ts level' e := by
  intro frames hawaits
  obtain ⟨reading, last, hrun, hlast, hcollapse⟩ := h frames (hawaits.mono hle)
  exact ⟨reading, last, hrun, hlast, fun k hk => hcollapse k (hk.trans hle)⟩

/-- What is read to an operand in any place. -/
theorem of_done (h : ∀ frames, ∃ mode, ts.foldlM Reading.step ⟨frames, .start⟩ =
    some ⟨frames, mode⟩ ∧ mode.operand? = some e) : Reads ts level e := by
  intro frames _
  obtain ⟨mode, hrun, hmode⟩ := h frames
  exact ⟨_, e, hrun, hmode, fun k _ => rfl⟩

/-- An expression that is read from the start is read as a whole. -/
theorem ofTokens? (h : Reads ts level e) : Expression.ofTokens? ts = some e := by
  obtain ⟨reading, last, hrun, hlast, hcollapse⟩ := h [] trivial
  have hall : collapse 0 reading.frames last = ([], e) := hcollapse 0 (Nat.zero_le level)
  simp [Expression.ofTokens?, hrun, hlast, hall]

theorem not_ends (h : Reads ts level e) {t : Token} (ht : t ∈ ts) : t.ends = false := by
  obtain ⟨reading, _, hrun, _⟩ := h [] trivial
  obtain ⟨init, rest, rfl⟩ := List.append_of_mem ht
  rw [List.foldlM_append] at hrun
  obtain ⟨middle, _, hrest⟩ := Option.bind_eq_some_iff.mp hrun
  rw [List.foldlM_cons] at hrest
  by_contra hends
  rw [Reading.step_ends (Bool.not_eq_false _ ▸ hends)] at hrest
  cases hrest

/-- Parentheses make an operand of any level. -/
theorem parens (h : Reads ts level e) :
    Reads (.symbol '(' :: (ts ++ [Token.symbol ')'])) level' e := by
  refine of_done fun frames => ⟨.done e, ?_, rfl⟩
  obtain ⟨reading, last, hrun, hlast, hcollapse⟩ := h (.opened :: frames) trivial
  have hclosed : collapse 0 reading.frames last = (.opened :: frames, e) :=
    hcollapse 0 (Nat.zero_le level)
  have hstep : Reading.step reading (.symbol ')') = some ⟨frames, .done e⟩ := by
    rw [Reading.step_symbol hlast (by decide) (by decide) (by decide), Reading.next, hclosed]
  show List.foldlM Reading.step ⟨.opened :: frames, .start⟩ (ts ++ [Token.symbol ')']) = _
  rw [List.foldlM_append, hrun]
  show List.foldlM Reading.step reading [.symbol ')'] = _
  rw [List.foldlM_cons, hstep]
  rfl

/-- An operator takes what is read in front of it and what is read behind it. -/
theorem binary {op : Operator} (hl : Reads ts op.tightness l) (hr : Reads us (op.tightness + 1) r) :
    Reads (ts ++ lexemes (" " ++ op.text ++ " ") ++ us) op.tightness (.binary op l r) := by
  intro frames hawaits
  obtain ⟨reading, last, hrun, hlast, hcollapse⟩ := hl frames hawaits
  have hleft : Reading.operator reading.frames last op = ⟨.left l op :: frames, .start⟩ := by
    rw [Reading.operator, hcollapse op.tightness le_rfl, hawaits.collapse]
  obtain ⟨reading', last', hrun', hlast', hcollapse'⟩ :=
    hr (.left l op :: frames) (Nat.lt_succ_self op.tightness)
  refine ⟨reading', last', ?_, hlast', fun k hk => ?_⟩
  · rw [List.foldlM_append, List.foldlM_append, hrun]
    show (List.foldlM Reading.step reading _ >>= _) = _
    rw [Reading.run_operator hlast, hleft]
    exact hrun'
  · rw [hcollapse' k (hk.trans (Nat.le_succ op.tightness))]
    exact if_pos hk

/-- Parentheses bring an expression up to any level. -/
theorem enclose {text : String} (asked : Nat) (h : Reads (lexemes text) level e) :
    Reads (lexemes (Expression.enclose asked level text)) asked e := by
  unfold Expression.enclose
  split
  · rw [lexemes_parens]
    exact h.parens
  · rename_i hbelow
    exact h.mono (Nat.not_lt.mp hbelow)

/-- The arguments of a function are read one after the other. -/
theorem run_arguments {f : Callee} {tss : List (List Token)} {es : List Expression}
    (h : List.Forall₂ (fun ts e => Reads ts 0 e) tss es) (hne : es ≠ []) (frames : List Frame)
    (before : List Expression) (happly : f.apply (before ++ es) = some e) :
    (List.intercalate [Token.symbol ','] tss ++ [Token.symbol ')']).foldlM Reading.step
      ⟨.applied f before :: frames, .start⟩ = some ⟨frames, .done e⟩ := by
  induction h generalizing before with
  | nil => exact absurd rfl hne
  | @cons ts arg tss es hts hall ih =>
    obtain ⟨reading, last, hrun, hlast, hcollapse⟩ := hts (.applied f before :: frames) trivial
    have hclosed : collapse 0 reading.frames last = (.applied f before :: frames, arg) :=
      hcollapse 0 le_rfl
    cases hall with
    | nil =>
      have hstep : Reading.step reading (.symbol ')') = some ⟨frames, .done e⟩ := by
        rw [Reading.step_symbol hlast (by decide) (by decide) (by decide), Reading.next, hclosed]
        simp [happly]
      rw [List.intercalate_singleton, List.foldlM_append, hrun]
      show List.foldlM Reading.step reading [.symbol ')'] = _
      rw [List.foldlM_cons, hstep]
      rfl
    | @cons ts' arg' tss es hts' hall =>
      have hstep : Reading.step reading (.symbol ',') =
          some ⟨.applied f (before ++ [arg]) :: frames, .start⟩ := by
        rw [Reading.step_symbol hlast (by decide) (by decide) (by decide), Reading.next, hclosed]
      rw [List.intercalate_cons_cons, List.append_assoc, List.append_assoc, List.foldlM_append,
        hrun]
      show List.foldlM Reading.step reading _ = _
      rw [List.singleton_append, List.foldlM_cons, hstep]
      exact ih (List.cons_ne_nil _ _) _ (by rw [List.append_assoc]; exact happly)

/-- A function that is applied to arguments. -/
theorem application {f : Callee} {head : List Token} {w : List Char} {tss : List (List Token)}
    {es : List Expression}
    (hhead : ∀ frames, head.foldlM Reading.step ⟨frames, .start⟩ = some ⟨frames, .word w⟩)
    (hw : Callee.ofWord? w = some f) (h : List.Forall₂ (fun ts e => Reads ts 0 e) tss es)
    (hne : es ≠ []) (happly : f.apply es = some e) :
    Reads (head ++ Token.symbol '('
      :: (List.intercalate [Token.symbol ','] tss ++ [Token.symbol ')'])) level e := by
  refine of_done fun frames => ⟨.done e, ?_, rfl⟩
  have hopen : Reading.step ⟨frames, .word w⟩ (.symbol '(') =
      some ⟨.applied f [] :: frames, .start⟩ := by
    simp [Reading.step, hw]
  rw [List.foldlM_append, hhead]
  show List.foldlM Reading.step ⟨frames, .word w⟩ _ = _
  rw [List.foldlM_cons, hopen]
  exact run_arguments h hne frames [] happly

end Reads

namespace Expression

mutual

/-- The expression without its parentheses. -/
def plain : Expression → Expression
  | literal x => literal x
  | var x => var x
  | uniform name => uniform name
  | components e cs => components e.plain cs
  | binary op left right => binary op left.plain right.plain
  | group e => e.plain
  | builtin f arguments => builtin f (plainAll arguments)
  | call f input coords => call f input.plain coords.plain

def plainAll : List Expression → List Expression
  | [] => []
  | e :: rest => e.plain :: plainAll rest

end

mutual

/-- Literals are finite, components are those of a variable, and every list that is written has a
member. -/
def Legible : Expression → Prop
  | literal x => x.isFinite
  | var _ | uniform _ => True
  | components e cs => (∃ x, e = var x) ∧ cs ≠ []
  | binary _ left right => left.Legible ∧ right.Legible
  | group e => e.Legible
  | builtin _ arguments => arguments ≠ [] ∧ AllLegible arguments
  | call _ input coords => input.Legible ∧ coords.Legible

def AllLegible : List Expression → Prop
  | [] => True
  | e :: rest => e.Legible ∧ AllLegible rest

end

variable {e : Expression}

/-- A finite number is read back from its literal, its sign included. -/
theorem reads_literal {x : Single} (hx : x.isFinite) (level : Nat) :
    Reads (lexemes (literalText x)) level (literal x) := by
  obtain ⟨w, hstarts, ⟨hlexemes, hliteral⟩ | ⟨hlexemes, hliteral⟩⟩ := exists_lexemes_literalText hx
  · have hoperand : operand? w = some (literal x) := by rw [operand?, if_pos hstarts, hliteral]
    rw [hlexemes]
    exact .of_done fun frames => ⟨.word w, rfl, hoperand⟩
  · rw [hlexemes]
    refine .of_done fun frames => ⟨.done (literal x), ?_, rfl⟩
    simp [Reading.step, hliteral]

theorem operand?_text (x : Variable) : operand? x.text.toList = some (var x) := by
  rw [operand?, x.text_plain.2.1, Variable.ofWord?_text]
  rfl

theorem reads_var (x : Variable) (level : Nat) : Reads (lexemes x.text) level (var x) := by
  rw [lexemes_var]
  exact .of_done fun frames => ⟨.word x.text.toList, rfl, operand?_text x⟩

theorem reads_uniform (u : UniformName) (level : Nat) :
    Reads (lexemes ("u." ++ u.text)) level (uniform u) := by
  rw [lexemes_uniform]
  refine .of_done fun frames => ⟨.done (uniform u), ?_, rfl⟩
  simp [Reading.step, UniformName.ofWord?_text]

/-- Components of a variable are read back. -/
theorem reads_components (x : Variable) {cs : List Component} (hne : cs ≠ []) (level : Nat) :
    Reads (lexemes (x.text ++ "." ++ String.ofList (cs.map Component.toChar))) level
      (components (var x) cs) := by
  rw [lexemes_components x hne]
  refine .of_done fun frames => ⟨.done (components (var x) cs), ?_, rfl⟩
  have hpoint : Reading.step ⟨frames, .word x.text.toList⟩ (.symbol '.') =
      some ⟨frames, .point (var x)⟩ := by
    simp [Reading.step, Reading.next, x.text_plain.2.2, operand?_text]
  have hcomponents : Reading.step ⟨frames, .point (var x)⟩ (.word (cs.map Component.toChar)) =
      some ⟨frames, .done (components (var x) cs)⟩ := by
    rw [Reading.step, Component.mapM_ofChar?]
    rfl
  show List.foldlM Reading.step ⟨frames, .word x.text.toList⟩ _ = _
  rw [List.foldlM_cons, hpoint]
  show List.foldlM Reading.step ⟨frames, .point (var x)⟩ _ = _
  rw [List.foldlM_cons, hcomponents]
  rfl

theorem run_builtin (f : Builtin) (frames : List Frame) :
    (lexemes f.text).foldlM Reading.step ⟨frames, .start⟩ = some ⟨frames, .word f.text.toList⟩ := by
  cases f <;> rfl

theorem plainAll_ne_nil {es : List Expression} (h : es ≠ []) : plainAll es ≠ [] := by
  obtain ⟨e, es, rfl⟩ := List.exists_cons_of_ne_nil h
  rw [plainAll]
  exact List.cons_ne_nil _ _

mutual

/-- The text of an expression has one reading, the expression without its parentheses. -/
theorem reads_text : (e : Expression) → e.Legible → Reads (lexemes e.text) e.level e.plain
  | literal x, h => by
    rw [text, plain]
    exact reads_literal h _
  | var x, _ => by
    rw [text, plain]
    exact reads_var x _
  | uniform u, _ => by
    rw [text, plain]
    exact reads_uniform u _
  | components e cs, h => by
    obtain ⟨⟨x, rfl⟩, hne⟩ := h
    rw [text, plain, plain]
    exact reads_components x hne _
  | binary op left right, h => by
    have hseparator : startsParted (" " ++ op.text ++ " ") ∧ endsParted (" " ++ op.text ++ " ") := by
      cases op <;> exact ⟨rfl, rfl⟩
    have htext : (binary op left right).text = enclose op.tightness left.level left.text
        ++ (" " ++ op.text ++ " ") ++ enclose (op.tightness + 1) right.level right.text := by
      simp only [text, String.append_assoc, op.level_eq_tightness]
    have hlevel : (binary op left right).level = op.tightness := op.level_eq_tightness
    rw [htext, hlevel, plain, lexemes_parted hseparator.1 hseparator.2]
    exact .binary ((reads_text left h.1).enclose _) ((reads_text right h.2).enclose _)
  | group e, h => by
    rw [text, plain, lexemes_parens]
    exact (reads_text e h).parens
  | builtin f arguments, h => by
    have hlexemes : lexemes (builtin f arguments).text = lexemes f.text ++ Token.symbol '('
        :: (List.intercalate [Token.symbol ','] ((texts arguments).map lexemes)
          ++ [Token.symbol ')']) := by
      rw [text, lexemes_append_of_startsParted _ rfl, lexemes_parted rfl rfl, lexemes_intercalate,
        List.append_assoc, List.append_assoc]
      rfl
    rw [hlexemes, plain]
    exact .application (run_builtin f) (Callee.ofWord?_builtin f) (reads_texts arguments h.2)
      (plainAll_ne_nil h.1) rfl
  | call f input coords, h => by
    have hlexemes : lexemes (call f input coords).text = [Token.word f.text.toList]
        ++ Token.symbol '(' :: (List.intercalate [Token.symbol ','] [lexemes input.text, lexemes coords.text]
          ++ [Token.symbol ')']) := by
      rw [text, lexemes_append_of_startsParted _ rfl, lexemes_parted rfl rfl,
        lexemes_parted rfl rfl, lexemes_function, List.intercalate_cons_cons,
        List.intercalate_singleton]
      simp only [List.append_assoc]
      rfl
    rw [hlexemes, plain]
    exact .application (fun _ => rfl) (Callee.ofWord?_function f)
      (.cons ((reads_text input h.1).mono (Nat.zero_le _))
        (.cons ((reads_text coords h.2).mono (Nat.zero_le _)) .nil)) (List.cons_ne_nil _ _) rfl

/-- Arguments are read back one by one. -/
theorem reads_texts : (es : List Expression) → AllLegible es →
    List.Forall₂ (fun ts e => Reads ts 0 e) ((texts es).map lexemes) (plainAll es)
  | [], _ => .nil
  | e :: rest, h => by
    rw [texts, plainAll, List.map_cons]
    exact .cons ((reads_text e h.1).mono (Nat.zero_le _)) (reads_texts rest h.2)

end

section

variable {context : Context} {locals : Locals}

mutual

/-- Parentheses do not change what an expression is worth. -/
theorem eval_plain : (e : Expression) → e.plain.eval context locals = e.eval context locals
  | literal _ | var _ | uniform _ => rfl
  | components e cs => by rw [plain, eval, eval_plain e, ← eval]
  | binary op left right => by rw [plain, eval, eval_plain left, eval_plain right, ← eval]
  | group e => by rw [plain, eval_plain e, ← eval_group]
  | builtin f arguments => by rw [plain, eval_builtin, evalAll_plainAll arguments, eval_builtin]
  | call f input coords => by
    rw [plain, eval_call, eval_plain input, eval_plain coords, eval_call]

/-- Leaving out redundant groups does not change the value of any argument. -/
theorem evalAll_plainAll :
    (es : List Expression) → evalAll context locals (plainAll es) = evalAll context locals es
  | [] => rfl
  | e :: rest => by rw [plainAll, evalAll, eval_plain e, evalAll_plainAll rest, ← evalAll]

end

end

end Expression

namespace Statement

/-- The statement with its expression put in place. -/
def plain : Statement → Statement
  | declare x e => declare x e.plain
  | declareVar x e => declareVar x e.plain
  | assign x e => assign x e.plain
  | assignComponent x c e => assignComponent x c e.plain
  | result e => result e.plain

/-- All expressions of the statement are legible. -/
def Legible : Statement → Prop
  | declare _ e | declareVar _ e | assign _ e | assignComponent _ _ e | result e => e.Legible

/-- An expression behind the start of a statement. -/
theorem exists_tokens_of_front {front : String} {head : List Token}
    {make : Expression → Statement} {e : Expression} (hfront : endsParted front)
    (hhead : lexemes front = head) (hends : head.all fun t => !t.ends)
    (hread : ∀ ts, ofTokens? (head ++ ts) = do return make (← Expression.ofTokens? ts))
    (he : e.Legible) :
    ∃ ts, lexemes (front ++ e.text ++ ";") = ts ++ [Token.symbol ';'] ∧
      ofTokens? ts = some (make e.plain) ∧ ∀ t, t ∈ ts → t.ends = false := by
  have hreads := e.reads_text he
  refine ⟨head ++ lexemes e.text, ?_, ?_, fun t ht => ?_⟩
  · rw [lexemes_append_of_startsParted _ rfl, lexemes_append_of_endsParted hfront, hhead]
    rfl
  · rw [hread, hreads.ofTokens?]
    rfl
  · rcases List.mem_append.mp ht with ht | ht
    · simpa using List.all_eq_true.mp hends t ht
    · exact hreads.not_ends ht

/-- The text of a statement is read as the statement. -/
theorem exists_tokens (s : Statement) (h : s.Legible) :
    ∃ ts, lexemes s.text = ts ++ [Token.symbol ';'] ∧ ofTokens? ts = some s.plain ∧
      ∀ t, t ∈ ts → t.ends = false := by
  cases s with
  | declare x e =>
    have hhead : lexemes ("let " ++ x.text ++ " = ") =
        [.word ['l', 'e', 't'], .word x.text.toList, .symbol '='] := by
      cases x <;> rfl
    refine exists_tokens_of_front (endsParted_append _ rfl) hhead rfl (fun ts => ?_) h
    have hread : ofTokens? (.word ['l', 'e', 't'] :: .word x.text.toList :: .symbol '=' :: ts) = do
        return declare (← Local.ofWord? x.text.toList) (← Expression.ofTokens? ts) := rfl
    rw [Local.ofWord?_text] at hread
    exact hread
  | declareVar x e =>
    have hhead : lexemes ("var " ++ x.text ++ " = ") =
        [.word ['v', 'a', 'r'], .word x.text.toList, .symbol '='] := by
      cases x <;> rfl
    refine exists_tokens_of_front (endsParted_append _ rfl) hhead rfl (fun ts => ?_) h
    have hread : ofTokens? (.word ['v', 'a', 'r'] :: .word x.text.toList :: .symbol '=' :: ts) = do
        return declareVar (← Local.ofWord? x.text.toList) (← Expression.ofTokens? ts) := rfl
    rw [Local.ofWord?_text] at hread
    exact hread
  | assign x e =>
    have hhead : lexemes (x.text ++ " = ") = [Token.word x.text.toList, .symbol '='] := by
      cases x <;> rfl
    refine exists_tokens_of_front (endsParted_append _ rfl) hhead rfl (fun ts => ?_) h
    cases x <;> rfl
  | assignComponent x c e =>
    have hhead : lexemes (x.text ++ "." ++ String.singleton c.toChar ++ " = ") =
        [.word x.text.toList, .symbol '.', .word [c.toChar], .symbol '='] := by
      have hcomponent := lexemes_components (.named x) (List.cons_ne_nil c [])
      rw [lexemes_append_of_startsParted _ rfl]
      exact congrArg (· ++ [Token.symbol '=']) hcomponent
    refine exists_tokens_of_front (endsParted_append _ rfl) hhead rfl (fun ts => ?_) h
    have hread : ofTokens? (.word x.text.toList :: .symbol '.' :: .word [c.toChar]
        :: .symbol '=' :: ts) = do
          return assignComponent x (← Component.ofChar? c.toChar) (← Expression.ofTokens? ts) := by
      cases x <;> rfl
    rw [Component.ofChar?_toChar] at hread
    exact hread
  | result e =>
    have hhead : lexemes "return " = [Token.word ['r', 'e', 't', 'u', 'r', 'n']] := rfl
    exact exists_tokens_of_front rfl hhead rfl (fun ts => rfl) h

end Statement

/-- Parentheses do not change what statements do. -/
theorem runStatements_plain {context : Context} {locals : Locals} (statements : List Statement) :
    runStatements context locals (statements.map Statement.plain) =
      runStatements context locals statements := by
  induction statements generalizing locals with
  | nil => rfl
  | cons s rest ih =>
    rw [List.map_cons]
    cases s <;> simp only [Statement.plain, runStatements, Expression.eval_plain, ih]

/-- Leaving out redundant groups does not change what a body computes. -/
theorem Context.run_plain {context : Context} (statements : List Statement) :
    context.run (statements.map Statement.plain) = context.run statements := by
  rw [run, runStatements_plain, ← run]

/-- The statements of a body are read one after the other. -/
theorem exists_tokens_of_body {body : List Statement} (h : ∀ s, s ∈ body → s.Legible) :
    ∃ tss : List (List Token),
      lexemes (String.join (body.map fun s => "    " ++ s.text ++ "\n")) =
        tss.flatMap (· ++ [Token.symbol ';']) ∧
      tss.mapM Statement.ofTokens? = some (body.map Statement.plain) ∧
      ∀ ts, ts ∈ tss → ∀ t, t ∈ ts → t.ends = false := by
  induction body with
  | nil => exact ⟨[], rfl, rfl, fun _ hts => by cases hts⟩
  | cons s body ih =>
    obtain ⟨hs, hbody⟩ := List.forall_mem_cons.mp h
    obtain ⟨ts, hlexemes, hread, hends⟩ := s.exists_tokens hs
    obtain ⟨tss, hlexemes', hread', hends'⟩ := ih hbody
    refine ⟨ts :: tss, ?_, ?_, List.forall_mem_cons.mpr ⟨hends, hends'⟩⟩
    · have hindent : lexemes "    " = [] := rfl
      have hend : lexemes "\n" = [] := rfl
      rw [List.map_cons, String.join_cons, lexemes_append_of_endsParted (endsParted_append _ rfl),
        hlexemes', lexemes_append_of_startsParted _ rfl, lexemes_append_of_endsParted rfl, hlexemes,
        hindent, hend, List.nil_append, List.append_nil, List.flatMap_cons]
    · rw [List.mapM_cons, hread, hread']
      rfl

end PixelEffect.Shader
