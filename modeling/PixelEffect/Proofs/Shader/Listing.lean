import PixelEffect.Proofs.Shader.Reading
import PixelEffect.Proofs.Shader.SourceText

namespace PixelEffect

namespace Shader

namespace Piece

/-- A piece with the symbols that end its parts. -/
def tokens : Piece → List Token
  | line ts => ts ++ [Token.symbol ';']
  | block head body => head ++ Token.symbol '\x7b' :: (body ++ [Token.symbol '\x7d'])

/-- No symbol that ends a piece, or a part of it, occurs within. -/
def WellFormed : Piece → Prop
  | line ts => ∀ t, t ∈ ts → t.ends = false
  | block head body => (∀ t, t ∈ head → t.ends = false) ∧
      ∀ t, t ∈ body → t ≠ .symbol '\x7b' ∧ t ≠ .symbol '\x7d'

theorem wellFormed_line {ts : List Token} (h : ts.all fun t => !t.ends) :
    (line ts).WellFormed := by
  intro t ht
  simpa using List.all_eq_true.mp h t ht

end Piece

section

variable {ts rest : List Token} {t : Token}

theorem Token.ne_of_not_ends (h : t.ends = false) :
    t ≠ .symbol '\x7b' ∧ t ≠ .symbol '\x7d' ∧ t ≠ .symbol ';' := by
  refine ⟨?_, ?_, ?_⟩ <;> rintro rfl <;> cases h

/-- Tokens of a head or a line are collected. -/
theorem pieces_append (h : ∀ t, t ∈ ts → t.ends = false) (read : List Token) :
    pieces none read (ts ++ rest) = pieces none (read ++ ts) rest := by
  induction ts generalizing read with
  | nil => rw [List.nil_append, List.append_nil]
  | cons t ts ih =>
    obtain ⟨ht, hts⟩ := List.forall_mem_cons.mp h
    obtain ⟨hopen, hclose, hend⟩ := Token.ne_of_not_ends ht
    rw [List.cons_append, pieces, if_neg hopen, if_neg hclose, if_neg (not_and.mpr
      fun heq => absurd heq hend), ih hts, List.append_assoc, List.singleton_append]

/-- Tokens of a block are collected, semicolons too. -/
theorem pieces_append_of_block
    (h : ∀ t, t ∈ ts → t ≠ .symbol '\x7b' ∧ t ≠ .symbol '\x7d') (head read : List Token) :
    pieces (some head) read (ts ++ rest) = pieces (some head) (read ++ ts) rest := by
  induction ts generalizing read with
  | nil => rw [List.nil_append, List.append_nil]
  | cons t ts ih =>
    obtain ⟨⟨hopen, hclose⟩, hts⟩ := List.forall_mem_cons.mp h
    rw [List.cons_append, pieces, if_neg hopen, if_neg hclose, if_neg (by simp), ih hts,
      List.append_assoc, List.singleton_append]

/-- A piece is cut off where it ends. -/
theorem pieces_cons {p : Piece} (h : p.WellFormed) (rest : List Token) :
    pieces none [] (p.tokens ++ rest) = do return p :: (← pieces none [] rest) := by
  cases p with
  | line ts =>
    rw [Piece.tokens, List.append_assoc, pieces_append h]
    rfl
  | block head body =>
    have hblock : pieces none []
        (head ++ Token.symbol '\x7b' :: (body ++ Token.symbol '\x7d' :: rest)) =
        do return .block head body :: (← pieces none [] rest) := by
      rw [pieces_append h.1]
      show pieces (some head) [] (body ++ _) = _
      rw [pieces_append_of_block h.2]
      rfl
    simpa [Piece.tokens] using hblock

/-- Pieces are found again in the text that they are put together to. -/
theorem pieces_flatMap {ps : List Piece} (h : ∀ p, p ∈ ps → p.WellFormed) :
    pieces none [] (ps.flatMap Piece.tokens) = some ps := by
  induction ps with
  | nil => rfl
  | cons p ps ih =>
    obtain ⟨hp, hps⟩ := List.forall_mem_cons.mp h
    rw [List.flatMap_cons, pieces_cons hp, ih hps]
    rfl

/-- Tokens are collected up to the next terminator. -/
theorem terminated_append {c : Char} (h : ∀ t, t ∈ ts → t ≠ .symbol c) (read : List Token) :
    terminated c read (ts ++ rest) = terminated c (read ++ ts) rest := by
  induction ts generalizing read with
  | nil => rw [List.nil_append, List.append_nil]
  | cons t ts ih =>
    obtain ⟨ht, hts⟩ := List.forall_mem_cons.mp h
    rw [List.cons_append, terminated, if_neg ht, ih hts, List.append_assoc, List.singleton_append]

/-- Lines are found again in the text that they are put together to. -/
theorem terminated_flatMap {c : Char} {tss : List (List Token)}
    (h : ∀ ts, ts ∈ tss → ∀ t, t ∈ ts → t ≠ .symbol c) :
    terminated c [] (tss.flatMap (· ++ [Token.symbol c])) = some tss := by
  induction tss with
  | nil => rfl
  | cons ts tss ih =>
    obtain ⟨hts, htss⟩ := List.forall_mem_cons.mp h
    rw [List.flatMap_cons, List.append_assoc, terminated_append hts, List.nil_append,
      List.singleton_append, terminated, if_pos rfl, ih htss]
    rfl

end

/-- Behind the declarations `l`, the text leads to the declarations `l'`. -/
def Adds (text : String) (l l' : Listing) : Prop :=
  ∃ ps : List Piece, lexemes text = ps.flatMap Piece.tokens ∧ (∀ p, p ∈ ps → p.WellFormed) ∧
    ps.foldlM Listing.add l = some l'

namespace Adds

variable {s t : String} {l l' l'' : Listing}

theorem nil (l : Listing) : Adds "" l l := ⟨[], rfl, fun _ hp => (by cases hp), rfl⟩

/-- A text that is one piece adds what the piece declares. -/
theorem of_piece {p : Piece} (hlexemes : lexemes s = p.tokens) (hp : p.WellFormed)
    (hadd : l.add p = some l') : Adds s l l' := by
  refine ⟨[p], ?_, fun q hq => List.mem_singleton.mp hq ▸ hp, ?_⟩
  · rw [hlexemes, List.flatMap_cons, List.flatMap_nil, List.append_nil]
  · rw [List.foldlM_cons, hadd]
    rfl

/-- Two texts that share no token add their declarations one after the other. -/
theorem append_of_lexemes (hs : Adds s l l') (ht : Adds t l' l'')
    (hlexemes : lexemes (s ++ t) = lexemes s ++ lexemes t) : Adds (s ++ t) l l'' := by
  obtain ⟨ps, hps, hwell, hfold⟩ := hs
  obtain ⟨qs, hqs, hwell', hfold'⟩ := ht
  refine ⟨ps ++ qs, ?_, List.forall_mem_append.mpr ⟨hwell, hwell'⟩, ?_⟩
  · rw [hlexemes, hps, hqs, List.flatMap_append]
  · rw [List.foldlM_append, hfold]
    exact hfold'

/-- Texts are put together at line ends. -/
theorem append (hs : Adds s l l') (ht : Adds t l' l'') (h : t = "" ∨ startsParted t) :
    Adds (s ++ t) l l'' := by
  refine append_of_lexemes hs ht ?_
  rcases h with rfl | h
  · rw [String.append_empty, show lexemes "" = [] from rfl, List.append_nil]
  · exact lexemes_append_of_startsParted s h

/-- A text that only declares is read as what it declares, a comment in front of it aside. -/
theorem ofText? (h : Adds t .empty l) :
    Listing.ofText? ("// generated by fxtree\n" ++ t) = some l := by
  obtain ⟨ps, hps, hwell, hfold⟩ := h
  have htext : String.ofList (Listing.afterComment ("// generated by fxtree\n" ++ t).toList) =
      "\n" ++ t := by
    rw [← String.toList_inj, String.toList_ofList, String.toList_append, String.toList_append]
    rfl
  have hlexemes : lexemes ("\n" ++ t) = lexemes t := by
    rw [lexemes_append_of_endsParted rfl]
    rfl
  rw [Listing.ofText?, htext, hlexemes, hps, pieces_flatMap hwell]
  exact hfold

end Adds

/-- A machine word is written as one word. -/
theorem lexemes_toString (x : UInt32) : lexemes (toString x) = [Token.word (toString x).toList] := by
  refine lexemes_word (fun c hc => continuesName_of_isDigit (isDigit_of_mem_toString hc)) ?_
  have hdigits : (toString x).toList = Nat.toDigits 10 x.toNat := by
    show (Nat.repr x.toNat).toList = _
    rw [Nat.toList_repr]
  rw [hdigits]
  exact Nat.toDigits_ne_nil

/-- What stands in front of the body of a function. -/
def headTokens (name : String) : List Token :=
  .word ['f', 'n'] :: .word name.toList ::
    lexemes "(_input: vec4<f32>, _coords: vec2<f32>) -> vec4<f32>"

/-- The head of a function is cut off in front of its body. -/
theorem lexemes_head {name : String} (hname : ∀ c, c ∈ name.toList → ProgramOptions.continuesName c)
    (hne : name.toList ≠ []) :
    lexemes ("\nfn " ++ name ++ signature) = headTokens name ++ [Token.symbol '\x7b'] := by
  have hsignature : lexemes signature =
      lexemes "(_input: vec4<f32>, _coords: vec2<f32>) -> vec4<f32>" ++ [Token.symbol '\x7b'] := by
    decide +kernel
  have hkeyword : lexemes "\nfn " = [Token.word ['f', 'n']] := rfl
  rw [lexemes_append_of_startsParted _ rfl, lexemes_append_of_endsParted rfl,
    lexemes_word hname hne, hsignature, hkeyword]
  rfl

theorem not_ends_headTokens (name : String) : ∀ t, t ∈ headTokens name → t.ends = false := by
  have hparameters : (lexemes "(_input: vec4<f32>, _coords: vec2<f32>) -> vec4<f32>").all
      fun t => !t.ends := by
    decide +kernel
  intro t ht
  rcases List.mem_cons.mp ht with rfl | ht
  · rfl
  · rcases List.mem_cons.mp ht with rfl | ht
    · rfl
    · simpa using List.all_eq_true.mp hparameters t ht

/-- A function is found by its head, which is not taken for the head of a structure. -/
theorem functionName?_headTokens (name : String) :
    headTokens name ≠ lexemes "struct Uniforms" ∧
      functionName? (headTokens name) = some name.toList := by
  have hstruct : lexemes "struct Uniforms" =
      [Token.word "struct".toList, .word "Uniforms".toList] := rfl
  constructor
  · rw [hstruct, headTokens]
    simp
  · rw [headTokens, functionName?]
    exact if_pos rfl

/-- A function with a new name is declared by its text. -/
theorem adds_function {name : String} {body : List Statement} {l : Listing}
    (hname : ∀ c, c ∈ name.toList → ProgramOptions.continuesName c) (hne : name.toList ≠ [])
    (hbody : ∀ s, s ∈ body → s.Legible) (hnew : name.toList ∉ l.functions.map Prod.fst) :
    Adds ("\nfn " ++ name ++ signature
        ++ String.join (body.map fun s => "    " ++ s.text ++ "\n") ++ "\x7d\n") l
      { l with functions := l.functions ++ [(name.toList, body.map Statement.plain)] } := by
  obtain ⟨tss, hlexemes, hread, hends⟩ := exists_tokens_of_body hbody
  refine @Adds.of_piece _ _ _ (.block (headTokens name) (tss.flatMap (· ++ [Token.symbol ';']))) ?_
    ⟨not_ends_headTokens name, fun t ht => ?_⟩ ?_
  · rw [lexemes_append_of_startsParted _ rfl,
      lexemes_append_of_endsParted (endsParted_append _ rfl), lexemes_head hname hne, hlexemes,
      Piece.tokens, List.append_assoc, List.append_assoc]
    rfl
  · obtain ⟨ts, hts, ht⟩ := List.mem_flatMap.mp ht
    rcases List.mem_append.mp ht with ht | ht
    · obtain ⟨hopen, hclose, _⟩ := Token.ne_of_not_ends (hends ts hts t ht)
      exact ⟨hopen, hclose⟩
    · rw [List.mem_singleton.mp ht]
      decide
  · obtain ⟨hstruct, hfunction⟩ := functionName?_headTokens name
    have hsemicolon : ∀ ts, ts ∈ tss → ∀ t, t ∈ ts → t ≠ .symbol ';' :=
      fun ts hts t ht => (Token.ne_of_not_ends (hends ts hts t ht)).2.2
    rw [Listing.add, if_neg hstruct, hfunction, terminated_flatMap hsemicolon]
    show (do
      let statements ← tss.mapM Statement.ofTokens?
      if name.toList ∈ l.functions.map Prod.fst then none
      else some { l with functions := l.functions ++ [(name.toList, statements)] }) = _
    rw [hread]
    exact if_neg hnew

theorem adds_fragCoord {l : Listing} (h : l.fragCoord = false) :
    Adds "var<private> sk_frag_coord: vec4<f32>;\n" l { l with fragCoord := true } := by
  have hne : lexemes "var<private> sk_frag_coord: vec4<f32>" ≠ [] := List.cons_ne_nil _ _
  refine @Adds.of_piece _ _ _ (.line (lexemes "var<private> sk_frag_coord: vec4<f32>")) rfl
    (Piece.wellFormed_line rfl) ?_
  rw [Listing.add, if_neg hne, if_pos rfl, h]
  rfl

theorem adds_destColor {l : Listing} (h : l.destColor = false) :
    Adds "var<private> sk_dst_color: vec4<f32>;\n" l { l with destColor := true } := by
  have hne : lexemes "var<private> sk_dst_color: vec4<f32>" ≠ [] := List.cons_ne_nil _ _
  have hother : lexemes "var<private> sk_dst_color: vec4<f32>" ≠
      lexemes "var<private> sk_frag_coord: vec4<f32>" := by
    decide +kernel
  refine @Adds.of_piece _ _ _ (.line (lexemes "var<private> sk_dst_color: vec4<f32>")) rfl
    (Piece.wellFormed_line rfl) ?_
  rw [Listing.add, if_neg hne, if_neg hother, if_pos rfl, h]
  rfl

/-- The functions of a program by the texts of their names. -/
def plainFunctions (fs : List GeneratedFunction) : List (List Char × List Statement) :=
  fs.map fun f => (f.name.text.toList, f.body.map Statement.plain)

/-- Functions are listed under their names. -/
theorem mem_plainFunctions {fs : List GeneratedFunction} {w : List Char} :
    w ∈ (plainFunctions fs).map Prod.fst ↔ ∃ f, f ∈ fs ∧ f.name.text.toList = w := by
  simp [plainFunctions]

/-- Functions with different names are declared one after the other. -/
theorem adds_functions {fs : List GeneratedFunction}
    (hlegible : ∀ f, f ∈ fs → ∀ s, s ∈ f.body → s.Legible)
    (hnodup : (fs.map GeneratedFunction.name).Nodup) {l : Listing}
    (hnew : ∀ f, f ∈ fs → f.name.text.toList ∉ l.functions.map Prod.fst) :
    Adds (String.join (fs.map fun f => "\n" ++ f.text)) l
      { l with functions := l.functions ++ plainFunctions fs } := by
  induction fs generalizing l with
  | nil =>
    rw [plainFunctions, List.map_nil, List.map_nil, List.append_nil]
    exact .nil l
  | cons f fs ih =>
    obtain ⟨hf, hfs⟩ := List.forall_mem_cons.mp hlegible
    obtain ⟨hfnew, hfsnew⟩ := List.forall_mem_cons.mp hnew
    rw [List.map_cons, List.nodup_cons] at hnodup
    have hother : ∀ g, g ∈ fs → g.name.text.toList ∉
        (l.functions ++ plainFunctions [f]).map Prod.fst := by
      intro g hg hmem
      rw [List.map_append, List.mem_append] at hmem
      rcases hmem with hmem | hmem
      · exact hfsnew g hg hmem
      · obtain ⟨f', hf', hsame⟩ := mem_plainFunctions.mp hmem
        rw [List.mem_singleton.mp hf'] at hsame
        have hname := FunctionName.text_injective (String.toList_inj.mp hsame)
        exact hnodup.1 (hname ▸ List.mem_map_of_mem hg)
    have hfirst := adds_function f.name.continuesName_text f.name.text_ne_nil hf hfnew
    have hrest :=
      @ih hfs hnodup.2 { l with functions := l.functions ++ plainFunctions [f] } hother
    have htext : "\n" ++ f.text = "\nfn " ++ f.name.text ++ signature
        ++ String.join (f.body.map fun s => "    " ++ s.text ++ "\n") ++ "\x7d\n" := by
      simp only [GeneratedFunction.text, ← String.append_assoc]
      rfl
    rw [List.map_cons, String.join_cons, htext]
    have hall := hfirst.append_of_lexemes hrest
      (lexemes_append_of_endsParted (endsParted_append _ rfl) _)
    rwa [List.append_assoc] at hall

end Shader

namespace ShaderSource

open Shader

variable {s : ShaderSource}

/-- The values that the renderer provides are read where they are declared. -/
theorem adds_globalText {l : Listing} (hcoord : l.fragCoord = false)
    (hcolor : l.destColor = false) :
    Adds s.globalText l { l with fragCoord := s.fragCoord, destColor := s.destination } := by
  have hblank : Adds "\n" l l := ⟨[], rfl, fun _ hp => (by cases hp), rfl⟩
  obtain ⟨members, binding, fragCoord, destColor, functions⟩ := l
  cases hcoord
  cases hcolor
  unfold globalText
  cases s.fragCoord <;> cases s.destination
  · exact .nil _
  · exact (hblank.append (.nil _) (.inl rfl)).append_of_lexemes (adds_destColor rfl)
      (lexemes_append_of_endsParted rfl _)
  · exact (hblank.append_of_lexemes (adds_fragCoord rfl)
      (lexemes_append_of_endsParted rfl _)).append (.nil _) (.inl rfl)
  · exact (hblank.append_of_lexemes (adds_fragCoord rfl)
      (lexemes_append_of_endsParted rfl _)).append_of_lexemes (adds_destColor rfl)
      (lexemes_append_of_endsParted rfl _)

/-- The declaration of a member. -/
def memberTokens (u : UniformName) : List Token :=
  .word u.text.toList :: .symbol ':' :: lexemes u.type.sourceText

theorem not_ends_memberTokens (u : UniformName) :
    ∀ t, t ∈ memberTokens u → t.ends = false ∧ t ≠ .symbol ',' := by
  have htype : (lexemes u.type.sourceText).all fun t => !t.ends && t ≠ .symbol ',' := by
    cases u.type <;> rfl
  intro t ht
  rcases List.mem_cons.mp ht with rfl | ht
  · exact ⟨rfl, fun h => by cases h⟩
  · rcases List.mem_cons.mp ht with rfl | ht
    · exact ⟨rfl, by decide⟩
    · simpa using List.all_eq_true.mp htype t ht

/-- A member of the block is a name, a type and a comma. -/
theorem lexemes_memberLine (u : UniformName) :
    lexemes ("    " ++ u.text ++ ": " ++ u.type.sourceText ++ ",\n") =
      memberTokens u ++ [Token.symbol ','] := by
  rw [lexemes_append_of_startsParted _ rfl, lexemes_parted rfl rfl,
    lexemes_append_of_endsParted rfl, lexemes_word u.continuesName_text u.text_ne_nil]
  rfl

/-- All members are read back. -/
theorem mapM_member? (us : List UniformName) :
    (us.map memberTokens).mapM member? = some (us.map fun u => (u, u.type)) := by
  induction us with
  | nil => rfl
  | cons u us ih =>
    have hu : member? (memberTokens u) = some (u, u.type) := by
      show (do return (← UniformName.ofWord? _, ← UniformType.ofTokens? _)) = _
      rw [UniformName.ofWord?_text, UniformType.ofTokens?_sourceText]
      rfl
    rw [List.map_cons, List.mapM_cons, hu, ih]
    rfl

/-- The declaration of the uniforms as a whole. -/
def bindingTokens (options : ProgramOptions) : List Token :=
  [Token.symbol '@', .word ['g', 'r', 'o', 'u', 'p'], .symbol '(',
    .word (toString options.uniformGroup).toList, .symbol ')', .symbol '@',
    .word ['b', 'i', 'n', 'd', 'i', 'n', 'g'], .symbol '(',
    .word (toString options.uniformBinding).toList, .symbol ')']
    ++ lexemes "var<uniform> u: Uniforms"

/-- The group and the binding are read back. -/
theorem binding?_bindingTokens (options : ProgramOptions) :
    binding? (bindingTokens options) = some (options.uniformGroup, options.uniformBinding) := by
  have hgroup := number?_toString options.uniformGroup
  have hbinding := number?_toString options.uniformBinding
  rw [bindingTokens]
  show (if lexemes "var<uniform> u: Uniforms" = lexemes "var<uniform> u: Uniforms" then do
    return (← number? _, ← number? _) else none) = _
  rw [if_pos rfl, hgroup, hbinding]
  rfl

/-- What the text of a program says of its uniforms. -/
def uniformListing (s : ShaderSource) : Listing :=
  { Listing.empty with
    members := s.uniforms.map fun u => (u, u.type)
    binding := if s.uniforms.isEmpty then none
      else some (s.options.uniformGroup, s.options.uniformBinding) }

/-- The structure of the uniforms. -/
def structPiece (us : List UniformName) : Piece :=
  .block (lexemes "struct Uniforms") ((us.map memberTokens).flatMap (· ++ [Token.symbol ',']))

theorem wellFormed_structPiece (us : List UniformName) : (structPiece us).WellFormed := by
  have hhead : (lexemes "struct Uniforms").all fun t => !t.ends := rfl
  refine ⟨fun t ht => by simpa using List.all_eq_true.mp hhead t ht, fun t ht => ?_⟩
  obtain ⟨ts, hts, ht⟩ := List.mem_flatMap.mp ht
  obtain ⟨u, _, rfl⟩ := List.mem_map.mp hts
  rcases List.mem_append.mp ht with ht | ht
  · obtain ⟨hopen, hclose, _⟩ := Token.ne_of_not_ends (not_ends_memberTokens u t ht).1
    exact ⟨hopen, hclose⟩
  · rw [List.mem_singleton.mp ht]
    decide

/-- The members of the block are read back, each name once. -/
theorem add_structPiece {us : List UniformName} (hnodup : us.Nodup) :
    Listing.empty.add (structPiece us) =
      some { Listing.empty with members := us.map fun u => (u, u.type) } := by
  have hcomma : ∀ ts, ts ∈ us.map memberTokens → ∀ t, t ∈ ts → t ≠ .symbol ',' := by
    intro ts hts t ht
    obtain ⟨u, _, rfl⟩ := List.mem_map.mp hts
    exact (not_ends_memberTokens u t ht).2
  have hnames : ((us.map fun u => (u, u.type)).map Prod.fst).Nodup := by
    rw [List.map_map]
    exact (List.map_id us).symm ▸ hnodup
  rw [structPiece, Listing.add, if_pos rfl, terminated_flatMap hcomma]
  show (do
    let members ← (us.map memberTokens).mapM member?
    if Listing.empty.members = [] ∧ (members.map Prod.fst).Nodup then
      some { Listing.empty with members }
    else none) = _
  rw [mapM_member?]
  exact if_pos ⟨rfl, hnames⟩

theorem not_ends_bindingTokens (options : ProgramOptions) :
    (bindingTokens options).all fun t => !t.ends := rfl

theorem add_bindingTokens {l : Listing} (h : l.binding = none) (options : ProgramOptions) :
    l.add (.line (bindingTokens options)) =
      some { l with binding := some (options.uniformGroup, options.uniformBinding) } := by
  have hcoord : bindingTokens options ≠ lexemes "var<private> sk_frag_coord: vec4<f32>" :=
    fun heq => absurd (List.cons.inj heq).1 (by decide)
  have hcolor : bindingTokens options ≠ lexemes "var<private> sk_dst_color: vec4<f32>" :=
    fun heq => absurd (List.cons.inj heq).1 (by decide)
  have hne : bindingTokens options ≠ [] := List.cons_ne_nil _ _
  rw [Listing.add, if_neg hne, if_neg hcoord, if_neg hcolor, h, binding?_bindingTokens]
  rfl

theorem lexemes_uniformText (hsome : ¬s.uniforms.isEmpty) : lexemes s.uniformText =
    (structPiece s.uniforms).tokens
      ++ Token.symbol ';' :: (bindingTokens s.options ++ [Token.symbol ';']) := by
  have hmembers : (s.uniforms.flatMap fun u =>
      lexemes ("    " ++ u.text ++ ": " ++ u.type.sourceText ++ ",\n")) =
        (s.uniforms.map memberTokens).flatMap (· ++ [Token.symbol ',']) := by
    rw [List.flatMap_map]
    exact congrArg (s.uniforms.flatMap ·) (funext lexemes_memberLine)
  unfold uniformText
  rw [if_neg hsome, lexemes_append_of_startsParted _ rfl, lexemes_parted rfl rfl,
    lexemes_parted rfl rfl, lexemes_append_of_endsParted rfl,
    lexemes_join fun _ => endsParted_append _ rfl, hmembers, lexemes_toString, lexemes_toString,
    structPiece, Piece.tokens]
  generalize (s.uniforms.map memberTokens).flatMap (· ++ [Token.symbol ',']) = members
  simp only [List.append_assoc, List.cons_append]
  rfl

/-- The uniforms and their binding are read back. -/
theorem adds_uniformText (hnodup : s.uniforms.Nodup) :
    Adds s.uniformText .empty s.uniformListing := by
  by_cases hempty : s.uniforms.isEmpty
  · have hnone : s.uniformListing = .empty := by
      rw [uniformListing, List.isEmpty_iff.mp hempty]
      rfl
    rw [hnone, uniformText, if_pos hempty]
    exact .nil _
  · have hlisting : s.uniformListing =
        { Listing.empty with
          members := s.uniforms.map fun u => (u, u.type)
          binding := some (s.options.uniformGroup, s.options.uniformBinding) } := by
      rw [uniformListing, if_neg hempty]
    refine ⟨[structPiece s.uniforms, .line [], .line (bindingTokens s.options)], ?_, ?_, ?_⟩
    · rw [lexemes_uniformText hempty]
      simp [Piece.tokens]
    · simp only [List.forall_mem_cons]
      exact ⟨wellFormed_structPiece _, fun t ht => (by cases ht),
        Piece.wellFormed_line (not_ends_bindingTokens _), fun p hp => (by cases hp)⟩
    · have hblank : ∀ l : Listing, l.add (.line []) = some l := by
        intro l
        rw [Listing.add, if_pos rfl]
      rw [hlisting, List.foldlM_cons, add_structPiece hnodup]
      show List.foldlM Listing.add _ [.line [], _] = _
      rw [List.foldlM_cons, hblank]
      show List.foldlM Listing.add _ [_] = _
      rw [List.foldlM_cons, add_bindingTokens rfl]
      rfl

/-- The call of the function of the root. -/
def rootCall (s : ShaderSource) : Statement := .result (.call s.root .input .coords)

/-- What the text of a program says. The function that the renderer calls is the last one. -/
def listing (s : ShaderSource) : Listing :=
  { s.uniformListing with
    fragCoord := s.fragCoord
    destColor := s.destination
    functions :=
      plainFunctions s.functions ++ [(s.options.entryPoint.toList, [s.rootCall])] }

/-- The entry point has a body of one statement. -/
theorem entryText_eq (s : ShaderSource) : s.entryText = "\nfn " ++ s.options.entryPoint ++ signature
    ++ String.join ([s.rootCall].map fun st => "    " ++ st.text ++ "\n") ++ "\x7d\n" := by
  have hcall : s.rootCall.text = "return " ++ s.root.text ++ "(_input, _coords);" := by
    rw [← String.toList_inj]
    simp [rootCall, Statement.text, Expression.text, Expression.input, Expression.coords,
      Variable.text]
  rw [← String.toList_inj]
  simp [entryText, hcall]

theorem startsParted_globalText (s : ShaderSource) :
    s.globalText = "" ∨ startsParted s.globalText := by
  unfold globalText
  cases s.fragCoord <;> cases s.destination <;> decide

theorem startsParted_functions (fs : List GeneratedFunction) :
    String.join (fs.map fun f => "\n" ++ f.text) = "" ∨
      startsParted (String.join (fs.map fun f => "\n" ++ f.text)) := by
  cases fs with
  | nil => exact .inl rfl
  | cons f rest =>
    right
    rw [List.map_cons, String.join_cons]
    exact startsParted_append (startsParted_append rfl _) _

theorem startsParted_entryText (s : ShaderSource) : startsParted s.entryText := by
  simp only [entryText, String.append_assoc]
  exact startsParted_append rfl _

/-- The text of a program is read as its functions, with the parentheses of expressions dropped, and
the one that calls the function of the root under the name that the renderer knows. -/
theorem ofText?_text (hvalid : s.options.validate = .ok ())
    (hlegible : ∀ f, f ∈ s.functions → ∀ st, st ∈ f.body → st.Legible)
    (hfunctions : (s.functions.map GeneratedFunction.name).Nodup) (huniforms : s.uniforms.Nodup) :
    Listing.ofText? s.text = some s.listing := by
  obtain ⟨hidentifier, _, hcollides⟩ := ProgramOptions.validate_eq_ok_iff.mp hvalid
  obtain ⟨hne, hname⟩ := ProgramOptions.forall_continuesName_of_isIdentifier hidentifier
  have hentry : s.options.entryPoint.toList ∉ (plainFunctions s.functions).map Prod.fst := by
    intro hmem
    obtain ⟨f, _, hsame⟩ := mem_plainFunctions.mp hmem
    rw [← hsame, f.name.isFunctionName_text] at hcollides
    cases hcollides
  have hroot : ∀ st, st ∈ [s.rootCall] → st.Legible := by
    intro st hst
    rw [List.mem_singleton.mp hst]
    exact ⟨trivial, trivial⟩
  have hglobals : Adds s.globalText s.uniformListing
      { s.uniformListing with fragCoord := s.fragCoord, destColor := s.destination } :=
    adds_globalText rfl rfl
  have hothers := @adds_functions _ hlegible hfunctions
    { s.uniformListing with fragCoord := s.fragCoord, destColor := s.destination }
    fun f _ => List.not_mem_nil
  have hlast : Adds s.entryText
      { s.uniformListing with
        fragCoord := s.fragCoord
        destColor := s.destination
        functions := plainFunctions s.functions } s.listing := by
    rw [entryText_eq]
    exact adds_function hname hne hroot hentry
  have hall := (((adds_uniformText huniforms).append hglobals s.startsParted_globalText).append
    hothers (startsParted_functions s.functions)).append hlast (.inr s.startsParted_entryText)
  have htext : s.text = "// generated by fxtree\n" ++ (s.uniformText ++ s.globalText
      ++ String.join (s.functions.map fun f => "\n" ++ f.text) ++ s.entryText) := by
    unfold text
    generalize s.uniformText = uniforms
    generalize s.globalText = globals
    generalize String.join _ = functions
    generalize s.entryText = entry
    simp only [String.append_assoc]
  rw [htext]
  exact hall.ofText?

variable {data : UniformValues} {renderer : Renderer}

/-- The block says for every uniform of which type it is. -/
theorem lookup_members (us : List UniformName) (u : UniformName) :
    (us.map fun u => (u, u.type)).lookup u = if u ∈ us then some u.type else none := by
  induction us with
  | nil => rfl
  | cons v us ih =>
    rw [List.map_cons, List.lookup_cons]
    by_cases h : u = v
    · simp [h]
    · have hne : (u == v) = false := beq_false_of_ne h
      simp [hne, h, ih]

/-- What was read gives functions the same surroundings as the program itself. -/
theorem globals_listing : s.listing.globals data renderer = s.globals data renderer := by
  have huniform : ∀ u, (s.listing.globals data renderer).uniform u =
      (s.globals data renderer).uniform u := by
    intro u
    have hlookup : s.listing.members.lookup u = if u ∈ s.uniforms then some u.type else none :=
      lookup_members s.uniforms u
    by_cases hu : u ∈ s.uniforms
    · have hsome : s.uniforms.isEmpty = false := by
        rw [List.isEmpty_eq_false_iff]
        exact List.ne_nil_of_mem hu
      have hbinding : s.listing.binding =
          some (s.options.uniformGroup, s.options.uniformBinding) := by
        show (if s.uniforms.isEmpty then none else _) = _
        rw [hsome]
        rfl
      simp only [Listing.globals, ShaderSource.globals, hlookup, if_pos hu, hbinding]
      cases data.get? u.text <;> rfl
    · simp only [Listing.globals, ShaderSource.globals, hlookup, if_neg hu]
      cases s.listing.binding <;> rfl
  exact congrArg (fun uniform => (⟨renderer, uniform, _, _⟩ : Globals)) (funext huniform)

/-- Functions are called by their texts as they are by their names. -/
theorem call_plainFunctions (globals : Globals) (fs : List GeneratedFunction)
    (name : FunctionName) :
    Listing.call globals (plainFunctions fs) name.text.toList = globals.call fs name := by
  induction fs generalizing name with
  | nil => rfl
  | cons f earlier ih =>
    funext input coords
    have hsame : f.name.text.toList = name.text.toList ↔ f.name = name :=
      ⟨fun h => FunctionName.text_injective (String.toList_inj.mp h), fun h => h ▸ rfl⟩
    show (if f.name.text.toList = name.text.toList then
        Context.run { globals with
          call := fun g => Listing.call globals (plainFunctions earlier) g.text.toList,
          input, coords } (f.body.map Statement.plain)
      else Listing.call globals (plainFunctions earlier) name.text.toList input coords) = _
    rw [funext ih, ih, Context.run_plain, Globals.call]
    simp only [hsame]

/-- From its entry point on, the text of a program does what the function of the root does. -/
theorem run_listing {input : Color ℚ} {coords : ℚ × ℚ} :
    s.listing.run s.options.entryPoint data renderer input coords =
      s.run data renderer input coords := by
  have hreverse : s.listing.functions.reverse =
      (s.options.entryPoint.toList, [s.rootCall]) :: plainFunctions s.functions.reverse := by
    show (plainFunctions s.functions ++ [_]).reverse = _
    rw [List.reverse_append, plainFunctions, ← List.map_reverse]
    rfl
  rw [Listing.run, hreverse, globals_listing, Listing.call, if_pos rfl,
    funext (call_plainFunctions _ _)]
  show (do
    let value ← (do
      let color ← (s.globals data renderer).call s.functions.reverse s.root input coords
      return Value.ofColor color : Option Value)
    value.toColor?) = _
  rw [run]
  cases (s.globals data renderer).call s.functions.reverse s.root input coords <;> rfl

end ShaderSource

end PixelEffect
