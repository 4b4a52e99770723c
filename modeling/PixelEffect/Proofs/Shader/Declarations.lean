import PixelEffect.Proofs.Shader.Program
import PixelEffect.Proofs.Shader.SourceText

namespace PixelEffect

namespace Shader

open ProgramOptions (continuesName)

/-- Where a reader of source text is, as far as it matters for what the next word declares. -/
inductive Scope
  | top
  /-- Behind a keyword that a name follows. -/
  | named
  /-- Behind `var`, in front of the name or of angle brackets. -/
  | stored
  /-- Between the angle brackets behind `var`. -/
  | space
  /-- Between braces that are nested in as many others. -/
  | block (depth : Nat)
deriving DecidableEq

/-- The keywords of the language that a name follows at the top level, except `var`. -/
def isDeclaring (w : List Char) : Bool :=
  w = "fn".toList || w = "struct".toList || w = "const".toList || w = "override".toList
    || w = "alias".toList

namespace Scope

def afterWord (scope : Scope) (w : List Char) : Scope :=
  match scope with
  | top => if w = "var".toList then stored else if isDeclaring w then named else top
  | named | stored => top
  | space => space
  | block depth => block depth

def afterSymbol (scope : Scope) (c : Char) : Scope :=
  match scope with
  | block 0 => if c = '\x7b' then block 1 else if c = '\x7d' then top else block 0
  | block (depth + 1) =>
    if c = '\x7b' then block (depth + 2) else if c = '\x7d' then block depth else block (depth + 1)
  | stored => if c = '<' then space else if c = '\x7b' then block 0 else stored
  | space => if c = '>' then named else space
  | scope => if c = '\x7b' then block 0 else scope

def next (scope : Scope) : Token → Scope
  | .word w => scope.afterWord w
  | .symbol c => scope.afterSymbol c

/-- The name that a token declares. -/
def declared? : Scope → Token → Option (List Char)
  | named, .word w | stored, .word w => some w
  | _, _ => none

end Scope

/-- The names that tokens declare at the top level, from a scope on. -/
def Token.declared : Scope → List Token → List (List Char)
  | _, [] => []
  | scope, t :: rest => (scope.declared? t).toList ++ declared (scope.next t) rest

/-- The names that a text declares at its top level, in order. -/
def declaredNames (text : String) : List (List Char) := Token.declared .top (tokens text.toList)

example : declaredNames
    "struct S \x7b x: f32 \x7d;\nvar<private> p: S;\nfn f() \x7b var q = p; \x7d\n" =
    ["S".toList, "p".toList, "f".toList] := by
  decide +kernel

/-- What is declared behind a text depends on the braces that are still open there. -/
theorem Token.declared_append (scope : Scope) (ts us : List Token) :
    declared scope (ts ++ us) = declared scope ts ++ declared (ts.foldl Scope.next scope) us := by
  induction ts generalizing scope with
  | nil => rfl
  | cons t ts ih =>
    rw [List.cons_append, declared, declared, ih, List.append_assoc]
    rfl

/-- No word reaches from the first text into the second one. -/
def Seam (s t : String) : Prop := tokens (s ++ t).toList = tokens s.toList ++ tokens t.toList

/-- The text ends with a symbol. -/
def endsSymbolic (s : String) : Bool := s.toList.getLast?.any fun c => !continuesName c

/-- The text starts with a symbol. -/
def startsSymbolic (s : String) : Bool := s.toList.head?.any fun c => !continuesName c

theorem endsSymbolic_append (s : String) {t : String} (h : endsSymbolic t) :
    endsSymbolic (s ++ t) := by
  obtain ⟨c, hlast, hc⟩ := Option.any_eq_true _ _ |>.mp h
  simpa [endsSymbolic, String.toList_append, List.getLast?_append, hlast] using hc

theorem startsSymbolic_append {s : String} (h : startsSymbolic s) (t : String) :
    startsSymbolic (s ++ t) := by
  obtain ⟨c, hhead, hc⟩ := Option.any_eq_true _ _ |>.mp h
  simpa [startsSymbolic, String.toList_append, List.head?_append, hhead] using hc

/-- No word reaches across the end of a text that ends with a symbol. -/
theorem seam_of_end {s : String} (h : s = "" ∨ endsSymbolic s) (t : String) : Seam s t := by
  rcases h with rfl | h
  · show tokens ("" ++ t).toList = tokens "".toList ++ tokens t.toList
    rw [String.empty_append]
    rfl
  · obtain ⟨c, hlast, hc⟩ := Option.any_eq_true _ _ |>.mp h
    obtain ⟨init, hinit⟩ := List.getLast?_eq_some_iff.mp hlast
    replace hc : continuesName c = false := by simpa using hc
    rw [Seam, String.toList_append, hinit, List.append_assoc, List.singleton_append,
      tokens_append_symbol hc, tokens_append_symbol hc, List.append_assoc]
    rfl

/-- No word reaches across the start of a text that starts with a symbol. -/
theorem seam_of_start (s : String) {t : String} (h : startsSymbolic t) : Seam s t := by
  obtain ⟨c, hhead, hc⟩ := Option.any_eq_true _ _ |>.mp h
  obtain ⟨rest, hrest⟩ := List.head?_eq_some_iff.mp hhead
  replace hc : continuesName c = false := by simpa using hc
  rw [Seam, String.toList_append, hrest, tokens_append_symbol hc, tokens_symbol hc]

/-- No braces occur in the text. -/
def isPlain (s : String) : Bool := s.toList.all fun c => c ≠ '\x7b' && c ≠ '\x7d'

@[simp] theorem isPlain_append (s t : String) : isPlain (s ++ t) = (isPlain s && isPlain t) := by
  rw [isPlain, String.toList_append, List.all_append]
  rfl

/-- Read in one scope, a text declares names at the top level and ends in another scope. -/
structure Declares (before : Scope) (text : String) (names : List (List Char)) (after : Scope) :
    Prop where
  names : Token.declared before (tokens text.toList) = names
  after : (tokens text.toList).foldl Scope.next before = after

namespace Declares

variable {before between after : Scope} {s t : String} {xs ys : List (List Char)}

/-- Two texts declare the names of both, if no word reaches across the seam. -/
theorem append (hs : Declares before s xs between) (ht : Declares between t ys after)
    (hseam : Seam s t) : Declares before (s ++ t) (xs ++ ys) after where
  names := by
    rw [hseam, Token.declared_append, hs.names, hs.after, ht.names]
  after := by
    rw [hseam, List.foldl_append, hs.after, ht.after]

/-- Behind a keyword any word is declared, and what it stands for is no keyword again. -/
theorem word (hw : ∀ c, c ∈ s.toList → continuesName c) (hne : s.toList ≠ []) :
    Declares .named s [s.toList] .top where
  names := by
    rw [tokens_word hw hne]
    rfl
  after := by
    rw [tokens_word hw hne]
    rfl

/-- Numbers at the top level mean nothing. -/
theorem digits (hs : ∀ c, c ∈ s.toList → c.isDigit) : Declares .top s [] .top := by
  by_cases hne : s.toList = []
  · constructor <;> rw [hne] <;> rfl
  have hw : ∀ c, c ∈ s.toList → continuesName c := by
    intro c hc
    simp [continuesName, Char.isAlphanum, hs c hc]
  have hkeyword : ∀ keyword : List Char, keyword.any (!Char.isDigit ·) → s.toList ≠ keyword := by
    rintro keyword hany rfl
    obtain ⟨c, hc, hdigit⟩ := List.any_eq_true.mp hany
    rw [hs c hc] at hdigit
    cases hdigit
  have hafter : Scope.top.afterWord s.toList = .top := by
    have hvar := hkeyword "var".toList rfl
    have hdeclaring : isDeclaring s.toList = false := by
      simp only [isDeclaring, Bool.or_eq_false_iff, decide_eq_false_iff_not]
      exact ⟨⟨⟨⟨hkeyword _ rfl, hkeyword _ rfl⟩, hkeyword _ rfl⟩, hkeyword _ rfl⟩, hkeyword _ rfl⟩
    simp only [Scope.afterWord, if_neg hvar, hdeclaring]
    rfl
  constructor
  · rw [tokens_word hw hne]
    rfl
  · rw [tokens_word hw hne]
    exact hafter

/-- Between braces nothing is declared at the top level, and only a brace leads out. -/
theorem block (hs : isPlain s) (depth : Nat) : Declares (.block depth) s [] (.block depth) := by
  have hsymbols : ∀ c, .symbol c ∈ tokens s.toList → c ≠ '\x7b' ∧ c ≠ '\x7d' := by
    intro c hc
    have hplain := List.all_eq_true.mp hs c ((mem_of_mem_tokens hc).2 c rfl)
    simpa using hplain
  suffices hall : ∀ ts : List Token, (∀ c, .symbol c ∈ ts → c ≠ '\x7b' ∧ c ≠ '\x7d') →
      Token.declared (.block depth) ts = [] ∧ ts.foldl Scope.next (.block depth) = .block depth from
    ⟨(hall _ hsymbols).1, (hall _ hsymbols).2⟩
  intro ts hts
  induction ts with
  | nil => exact ⟨rfl, rfl⟩
  | cons t ts ih =>
    have hnext : (Scope.block depth).next t = .block depth := by
      cases t with
      | word w => rfl
      | symbol c =>
        obtain ⟨hopen, hclose⟩ := hts c List.mem_cons_self
        cases depth <;> simp [Scope.next, Scope.afterSymbol, hopen, hclose]
    obtain ⟨hnames, hafter⟩ := ih fun c hc => hts c (List.mem_cons_of_mem _ hc)
    rw [Token.declared, List.foldl_cons, hnext]
    exact ⟨hnames, hafter⟩

/-- A list of declarations declares their names in order. -/
theorem join {α : Type} {text : α → String} {name : α → List Char}
    (h : ∀ x, Declares .top (text x) [name x] .top)
    (hends : ∀ x, endsSymbolic (text x)) (xs : List α) :
    Declares .top (String.join (xs.map text)) (xs.map name) .top := by
  induction xs with
  | nil => exact ⟨rfl, rfl⟩
  | cons x xs ih =>
    rw [List.map_cons, String.join_cons]
    exact (h x).append ih (seam_of_end (.inr (hends x)) _)

end Declares

theorem isPlain_of_continuesName {s : String} (h : ∀ c, c ∈ s.toList → continuesName c) :
    isPlain s := by
  refine List.all_eq_true.mpr fun c hc => ?_
  have hname := h c hc
  by_cases hbrace : c = '\x7b' ∨ c = '\x7d'
  · rcases hbrace with rfl | rfl <;> exact absurd hname (by decide)
  · simpa using hbrace

theorem isPlain_numberText (style : NumberStyle) (x : Single) : isPlain (style.text x) := by
  refine List.all_eq_true.mpr fun c hc => ?_
  rcases NumberStyle.mem_text hc with hdigit | hletter
  · by_cases hbrace : c = '\x7b' ∨ c = '\x7d'
    · rcases hbrace with rfl | rfl <;> exact absurd hdigit (by decide)
    · simpa using hbrace
  · have hall : ['-', '+', '.', 'e', 'N', 'a', 'i', 'n', 'f'].all
        fun c => c ≠ '\x7b' && c ≠ '\x7d' := rfl
    exact List.all_eq_true.mp hall c hletter

namespace Expression

theorem isPlain_enclose {text : String} (h : isPlain text) (asked level : Nat) :
    isPlain (enclose asked level text) := by
  unfold enclose
  split
  · rw [isPlain_append, isPlain_append, h]
    rfl
  · exact h

theorem isPlain_components (cs : List Component) :
    isPlain (String.ofList (cs.map Component.toChar)) := by
  refine List.all_eq_true.mpr fun c hc => ?_
  rw [String.toList_ofList] at hc
  obtain ⟨component, _, rfl⟩ := List.mem_map.mp hc
  cases component <;> rfl

mutual

/-- An expression declares nothing and has no braces. -/
theorem isPlain_text : (e : Expression) → isPlain e.text
  | literal x => by
    simp only [text, literalText]
    split
    · exact isPlain_numberText _ x
    · rw [isPlain_append, isPlain_numberText]
      rfl
  | var x => by
    cases x with
    | named x => cases x <;> rfl
    | _ => rfl
  | uniform name => by
    rw [text, isPlain_append, isPlain_of_continuesName name.continuesName_text]
    rfl
  | components e cs => by
    rw [text, isPlain_append, isPlain_append, isPlain_enclose (isPlain_text e),
      isPlain_components]
    rfl
  | binary op left right => by
    have hop : isPlain op.text := by cases op <;> rfl
    simp only [text, isPlain_append, isPlain_enclose (isPlain_text left),
      isPlain_enclose (isPlain_text right), hop]
    rfl
  | group e => by
    rw [text, isPlain_append, isPlain_append, isPlain_text e]
    rfl
  | builtin f arguments => by
    have hname : isPlain f.text := by cases f <;> rfl
    simp only [text, isPlain_append, hname, isPlain_texts arguments]
    rfl
  | call f input coords => by
    simp only [text, isPlain_append, isPlain_of_continuesName f.continuesName_text,
      isPlain_text input, isPlain_text coords]
    rfl

theorem isPlain_texts : (es : List Expression) → isPlain (", ".intercalate (texts es))
  | [] => rfl
  | [e] => by
    rw [texts, texts, String.intercalate_singleton]
    exact isPlain_text e
  | e :: e' :: rest => by
    have hrest := isPlain_texts (e' :: rest)
    rw [texts] at hrest
    rw [texts, texts, String.intercalate_cons_cons, isPlain_append, isPlain_append, hrest,
      isPlain_text e]
    rfl

end

end Expression

/-- A statement within a body declares nothing at the top level. -/
theorem Statement.isPlain_text (s : Statement) : isPlain s.text := by
  have hassigned : ∀ (front : String) (e : Expression), isPlain front →
      isPlain (front ++ " = " ++ e.text ++ ";") := by
    intro front e hfront
    simp only [isPlain_append, hfront, e.isPlain_text]
    rfl
  cases s with
  | declare x e => exact hassigned _ e (by cases x <;> rfl)
  | declareVar x e => exact hassigned _ e (by cases x <;> rfl)
  | assign x e => exact hassigned _ e (by cases x <;> rfl)
  | assignComponent x c e => exact hassigned _ e (by cases x <;> cases c <;> rfl)
  | result e =>
    rw [text, isPlain_append, isPlain_append, e.isPlain_text]
    rfl

theorem isPlain_join {α : Type} {text : α → String} (h : ∀ x, isPlain (text x)) (xs : List α) :
    isPlain (String.join (xs.map text)) := by
  induction xs with
  | nil => rfl
  | cons x xs ih =>
    rw [List.map_cons, String.join_cons, isPlain_append, h x, ih]
    rfl

/-- The bodies of functions have no braces of their own. -/
theorem GeneratedFunction.isPlain_bodyText (f : GeneratedFunction) : isPlain f.bodyText := by
  refine isPlain_join (fun statement => ?_) f.body
  rw [isPlain_append, isPlain_append, statement.isPlain_text]
  rfl

/-- The head of a function declares the function, whatever its name. -/
theorem declares_head {s : String} (hw : ∀ c, c ∈ s.toList → continuesName c)
    (hne : s.toList ≠ []) : Declares .top ("\nfn " ++ (s ++ signature)) [s.toList] (.block 0) := by
  have hkeyword : Declares .top "\nfn " [] .named := ⟨rfl, rfl⟩
  have hsignature : Declares .top signature [] (.block 0) := ⟨rfl, rfl⟩
  have hname := (Declares.word hw hne).append hsignature (seam_of_start s rfl)
  exact hkeyword.append hname (seam_of_end (.inr rfl) _)

/-- A generated function declares its own name and nothing else. -/
theorem GeneratedFunction.declares_text (f : GeneratedFunction) :
    Declares .top ("\n" ++ f.text) [f.name.text.toList] .top := by
  have hhead := declares_head f.name.continuesName_text f.name.text_ne_nil
  have hend : Declares (.block 0) "\x7d\n" [] .top := ⟨rfl, rfl⟩
  have hbody := (Declares.block f.isPlain_bodyText 0).append hend (seam_of_start _ rfl)
  have hends : endsSymbolic ("\nfn " ++ (f.name.text ++ signature)) :=
    endsSymbolic_append _ (endsSymbolic_append _ rfl)
  have htext : "\n" ++ f.text =
      "\nfn " ++ (f.name.text ++ signature) ++ (f.bodyText ++ "\x7d\n") := by
    have hkeyword : "\nfn " = "\n" ++ "fn " := rfl
    simp only [text_eq, hkeyword, String.append_assoc]
  rw [htext]
  exact hhead.append hbody (seam_of_end (.inr hends) _)

end Shader

namespace ShaderSource

open Shader ProgramOptions

/-- The names that the declaration of the uniforms declares. -/
def uniformNames (s : ShaderSource) : List (List Char) :=
  if s.uniforms.isEmpty then [] else ["Uniforms".toList, "u".toList]

/-- The names of what the renderer provides, as far as it is declared. -/
def globalNames (s : ShaderSource) : List (List Char) :=
  (if s.fragCoord then [Variable.fragCoord.text.toList] else [])
    ++ (if s.destination then [Variable.destColor.text.toList] else [])

/-- Everything that the program declares in front of its entry point. -/
def otherNames (s : ShaderSource) : List (List Char) :=
  s.uniformNames ++ s.globalNames ++ s.functions.map fun f => f.name.text.toList

/-- The uniforms are declared, and behind them their block. -/
theorem declares_uniformText (s : ShaderSource) :
    Declares .top s.uniformText s.uniformNames .top := by
  have hopen : Declares .top "\nstruct Uniforms \x7b\n" ["Uniforms".toList] (.block 0) := ⟨rfl, rfl⟩
  have hmembers : Declares (.block 0) (String.join (s.uniforms.map fun u =>
      "    " ++ u.text ++ ": " ++ u.type.sourceText ++ ",\n")) [] (.block 0) := by
    refine .block (isPlain_join (fun u => ?_) _) 0
    have htype : isPlain u.type.sourceText := by cases u.type <;> rfl
    simp only [isPlain_append, isPlain_of_continuesName u.continuesName_text, htype]
    rfl
  have hclose : Declares (.block 0) "\x7d;\n\n@group(" [] .top := ⟨rfl, rfl⟩
  have hgroup := Declares.digits (fun _ => isDigit_of_mem_toString (x := s.options.uniformGroup))
  have hbetween : Declares .top ") @binding(" [] .top := ⟨rfl, rfl⟩
  have hbinding := Declares.digits (fun _ => isDigit_of_mem_toString (x := s.options.uniformBinding))
  have hblock : Declares .top ") var<uniform> u: Uniforms;\n" ["u".toList] .top := ⟨rfl, rfl⟩
  unfold uniformText uniformNames
  split
  · exact ⟨rfl, rfl⟩
  · have htail := hbetween.append (hbinding.append hblock (seam_of_start _ rfl))
      (seam_of_end (.inr rfl) _)
    have hrest := hclose.append (hgroup.append htail
      (seam_of_start _ (startsSymbolic_append rfl _))) (seam_of_end (.inr rfl) _)
    have hall := hopen.append (hmembers.append hrest
      (seam_of_start _ (startsSymbolic_append rfl _))) (seam_of_end (.inr rfl) _)
    simpa only [String.append_assoc, List.cons_append, List.nil_append] using hall

/-- The values that the renderer provides are declared where the program uses them. -/
theorem declares_globalText (s : ShaderSource) :
    Declares .top s.globalText s.globalNames .top := by
  unfold globalText globalNames
  cases s.fragCoord <;> cases s.destination <;> exact ⟨rfl, rfl⟩

/-- The entry point is declared behind everything else, even if its name is a keyword. -/
theorem declares_entryText {s : ShaderSource} (hvalid : s.options.validate = .ok ()) :
    Declares .top s.entryText [s.options.entryPoint.toList] .top := by
  obtain ⟨hidentifier, _, _⟩ := validate_eq_ok_iff.mp hvalid
  obtain ⟨hne, hname⟩ := forall_continuesName_of_isIdentifier hidentifier
  have hplain : isPlain ("    return " ++ (s.root.text ++ "(_input, _coords);\n")) := by
    simp only [isPlain_append, isPlain_of_continuesName s.root.continuesName_text]
    rfl
  have hend : Declares (.block 0) "\x7d\n" [] .top := ⟨rfl, rfl⟩
  have hbody := (Declares.block hplain 0).append hend (seam_of_start _ rfl)
  have hentry := (declares_head hname hne).append hbody (seam_of_start _ ?_)
  · have htext : s.entryText = "\nfn " ++ (s.options.entryPoint ++ signature)
        ++ ("    return " ++ (s.root.text ++ "(_input, _coords);\n") ++ "\x7d\n") := by
      have hline : "(_input, _coords);\n\x7d\n" = "(_input, _coords);\n" ++ "\x7d\n" := rfl
      simp only [entryText, String.append_assoc, hline]
    rw [htext]
    exact hentry
  · exact startsSymbolic_append (startsSymbolic_append rfl _) _

/-- The text of a program from its first line to the entry point. -/
theorem text_eq (s : ShaderSource) :
    s.text = "// generated by fxtree\n" ++ (s.uniformText ++ (s.globalText
      ++ (String.join (s.functions.map fun f => "\n" ++ f.text) ++ s.entryText))) := by
  unfold text
  -- Opened, the literals in the text of the entry point would be compared character by character.
  generalize s.entryText = entry
  simp only [String.append_assoc]

/-- What the text of a program declares at its top level. -/
theorem declaredNames_text {s : ShaderSource} (hvalid : s.options.validate = .ok ()) :
    declaredNames s.text = s.otherNames ++ [s.options.entryPoint.toList] := by
  have hheader : Declares .top "// generated by fxtree\n" [] .top := ⟨rfl, rfl⟩
  have hends : ∀ f : GeneratedFunction, endsSymbolic ("\n" ++ f.text) := by
    intro f
    rw [GeneratedFunction.text_eq]
    exact endsSymbolic_append _ (endsSymbolic_append _ rfl)
  have huniforms : s.uniformText = "" ∨ endsSymbolic s.uniformText := by
    unfold uniformText
    split
    · exact .inl rfl
    · exact .inr (endsSymbolic_append _ rfl)
  have hglobals : s.globalText = "" ∨ endsSymbolic s.globalText := by
    unfold globalText
    cases s.fragCoord <;> cases s.destination <;> decide
  have hentry : startsSymbolic s.entryText := by
    simp only [entryText, String.append_assoc]
    exact startsSymbolic_append rfl _
  have hfunctions := (Declares.join GeneratedFunction.declares_text hends s.functions).append
    (declares_entryText hvalid) (seam_of_start _ hentry)
  have hdeclarations := s.declares_uniformText.append
    (s.declares_globalText.append hfunctions (seam_of_end hglobals _)) (seam_of_end huniforms _)
  have hall := hheader.append hdeclarations (seam_of_end (.inr rfl) _)
  rw [declaredNames, text_eq, hall.names, otherNames]
  simp only [List.append_assoc, List.nil_append]

/-- Acceptable options keep the entry point apart from everything else, except from the type of the
uniforms. -/
theorem entryPoint_mem_otherNames {s : ShaderSource} (hvalid : s.options.validate = .ok ()) :
    s.options.entryPoint.toList ∈ s.otherNames ↔
      s.options.entryPoint = "Uniforms" ∧ s.uniforms ≠ [] := by
  obtain ⟨_, hreserved, hfunction⟩ := validate_eq_ok_iff.mp hvalid
  have hglobals : s.options.entryPoint.toList ∉ s.globalNames := by
    intro hmem
    have hglobal : isGlobal s.options.entryPoint.toList := by
      rcases List.mem_append.mp hmem with h | h <;> split at h
      · rw [List.mem_singleton.mp h]
        rfl
      · cases h
      · rw [List.mem_singleton.mp h]
        rfl
      · cases h
    rw [isReserved_of_isGlobal hglobal] at hreserved
    cases hreserved
  have hfunctions : s.options.entryPoint.toList ∉ s.functions.map fun f => f.name.text.toList := by
    intro hmem
    obtain ⟨f, _, hname⟩ := List.mem_map.mp hmem
    rw [← hname, f.name.isFunctionName_text] at hfunction
    cases hfunction
  have hblock : s.options.entryPoint.toList ≠ "u".toList := by
    intro hname
    rw [hname] at hreserved
    cases hreserved
  rw [otherNames, List.mem_append, List.mem_append, or_iff_left hfunctions, or_iff_left hglobals,
    uniformNames]
  cases s.uniforms with
  | nil => simp
  | cons u us =>
    rw [List.isEmpty_cons, if_neg Bool.false_ne_true, List.mem_cons, List.mem_singleton,
      or_iff_left hblock, String.toList_inj]
    simp

end ShaderSource

namespace Program

open Shader

/-- A program declares its entry point last. The name is free by then unless it is the one of the
type of the uniforms, which options may name although nothing else of a program. -/
theorem entryPoint_declared {n : Node} {options : ProgramOptions} {p : Program}
    (h : Program.ofNode n options = .ok p) :
    declaredNames p.text = p.source.otherNames ++ [options.entryPoint.toList] ∧
      (options.entryPoint.toList ∈ p.source.otherNames ↔
        options.entryPoint = "Uniforms" ∧ p.uniforms ≠ []) := by
  obtain ⟨hvalid, _, rfl⟩ := ofNode_eq_ok_iff.mp h
  exact ⟨ShaderSource.declaredNames_text hvalid, ShaderSource.entryPoint_mem_otherNames hvalid⟩

/-- A plain color with a uniform, and the function of the program apart from all the rest. -/
theorem entryPoint_declared_white :
    ∃ p, Program.ofNode (Node.leaf ⟨0⟩ (.color .white) .empty) .standard = .ok p ∧
      "main_color".toList ∉ p.source.otherNames ∧
      declaredNames p.text = ["Uniforms".toList, "u".toList, "fp0".toList, "main_color".toList] := by
  have hp : Program.ofNode (Node.leaf ⟨0⟩ (.color .white) .empty) .standard = .ok _ :=
    ofNode_eq_ok_iff.mpr ⟨rfl, by decide, rfl⟩
  obtain ⟨hnames, hfree⟩ := entryPoint_declared hp
  exact ⟨_, hp, fun h => absurd (hfree.mp h).1 (by decide), hnames⟩

/-- The options accept the name of the type of the uniforms, which then stands for two things. -/
theorem entryPoint_declared_twice :
    ¬∀ (n : Node) (options : ProgramOptions) (p : Program), Program.ofNode n options = .ok p →
      (declaredNames p.text).count options.entryPoint.toList = 1 := by
  intro h
  have hvalid : { ProgramOptions.standard with entryPoint := "Uniforms" }.validate = .ok () := rfl
  have hp : Program.ofNode (Node.leaf ⟨0⟩ (.color .white) .empty)
      { ProgramOptions.standard with entryPoint := "Uniforms" } = .ok _ :=
    ofNode_eq_ok_iff.mpr ⟨hvalid, by decide, rfl⟩
  have honce := h _ _ _ hp
  rw [Program.text, ShaderSource.declaredNames_text hvalid] at honce
  exact absurd honce (by decide)

end Program

end PixelEffect
