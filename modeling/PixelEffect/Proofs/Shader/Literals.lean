import PixelEffect.Proofs.Decimal.Reading
import PixelEffect.Proofs.Pool.Basic
import PixelEffect.Proofs.Shader.Program

namespace PixelEffect

/-- The numeral of a floating-point literal: there are digits in front, and a point with digits or
an exponent behind them. -/
structure Numeral.IsFloat (n : Numeral) : Prop extends Regular n where
  whole_ne : n.whole ≠ []
  exponent_ne : ∀ sign ds, n.exponent = some (sign, ds) → ds ≠ []
  float : n.fraction ≠ [] ∨ n.exponent.isSome

/-- The text is a floating-point literal and nothing else. -/
def IsFloatLiteral (text : String) : Prop :=
  ∃ n : Numeral, n.IsFloat ∧ text = String.ofList n.toChars

/-- Numbers in this style never look like integers. -/
theorem NumberStyle.isFloat_floating (x : Single) : (floating.numeral x).IsFloat := by
  have hstrict := strict_numeral floating x
  refine ⟨hstrict.toRegular, hstrict.whole_ne, hstrict.exponent_ne, ?_⟩
  simp only [numeral]
  split
  · exact .inl (List.cons_ne_nil _ _)
  · split
    · left
      simp only [positional]
      split
      · exact List.cons_ne_nil _ _
      · rename_i hfraction
        exact fun hnil => hfraction (by rw [hnil]; rfl)
    · exact .inr rfl

/-- A numeral of a float has a point or an exponent. -/
theorem Numeral.IsFloat.mark_mem {n : Numeral} (h : n.IsFloat) :
    '.' ∈ n.toChars ∨ 'e' ∈ n.toChars := by
  rw [toChars_eq]
  rcases h.float with hfraction | hexponent
  · left
    simp [fractionChars, hfraction]
  · right
    obtain ⟨⟨sign, ds⟩, he⟩ := Option.isSome_iff_exists.mp hexponent
    cases sign <;> simp [powerChars, exponentChars, he]

namespace Shader

namespace Expression

variable {x y : Single}

/-- A finite number is written as it is in that style, and nothing is added to it. -/
theorem literalText_of_isFinite (hx : x.isFinite) :
    literalText x = String.ofList (NumberStyle.floating.numeral x).toChars := by
  have hmark := (NumberStyle.isFloat_floating x).mark_mem
  simp only [literalText, NumberStyle.text_of_isFinite _ hx, String.contains_char_eq,
    String.toList_ofList]
  rw [if_pos]
  simpa using hmark

/-- The letters of the values that are no numbers stay, with a fraction behind them. -/
theorem literalText_of_not_isFinite (hx : x.isFinite = false) :
    literalText x ∈ ["NaN.0", "inf.0", "-inf.0"] := by
  simp only [literalText, NumberStyle.text, hx, Bool.false_eq_true, if_false,
    String.contains_char_eq]
  split
  · decide
  · split <;> decide

/-- A literal is well-formed exactly if the number is finite. -/
theorem isFloatLiteral_literalText : IsFloatLiteral (literalText x) ↔ x.isFinite := by
  constructor
  · rintro ⟨n, hn, htext⟩
    by_contra hx
    have hmem := literalText_of_not_isFinite (Bool.not_eq_true _ ▸ hx)
    -- An `n` or an `N` is in none of the numerals.
    have hletter : 'N' ∈ n.toChars ∨ 'n' ∈ n.toChars := by
      rw [htext] at hmem
      have hlist : n.toChars ∈ ["NaN.0", "inf.0", "-inf.0"].map String.toList := by
        rw [← String.toList_ofList (l := n.toChars)]
        exact List.mem_map_of_mem hmem
      revert hlist
      simp only [List.map_cons, List.map_nil, String.reduceToList, List.mem_cons, List.not_mem_nil,
        or_false]
      rintro (h | h | h) <;> rw [h] <;> decide
    rcases hletter with h | h <;> exact absurd (hn.toRegular.mem_toChars h) (by decide)
  · intro hx
    exact ⟨_, NumberStyle.isFloat_floating x, literalText_of_isFinite hx⟩

/-- A literal is read as the number that it was made of, or not at all. -/
theorem ofText_literalText : Ieee.ofText (literalText x) = .ok y ↔ x.isFinite ∧ y = x := by
  by_cases hx : x.isFinite
  · rw [literalText_of_isFinite hx, ← NumberStyle.text_of_isFinite _ hx, Ieee.ofText_text _ hx,
      Except.ok.injEq]
    exact ⟨fun h => ⟨hx, h.symm⟩, fun h => h.2.symm⟩
  · have hmem := literalText_of_not_isFinite (Bool.not_eq_true _ ▸ hx)
    have hrefused : ∀ text, text ∈ ["NaN.0", "inf.0", "-inf.0"] →
        Ieee.ofText text = .error .invalid := by
      decide
    rw [hrefused _ hmem]
    exact ⟨fun h => (by cases h), fun h => absurd h.1 hx⟩

end Expression

namespace Expression

mutual

/-- The numbers that an expression is made of, from left to right. -/
def literals : Expression → List Single
  | literal x => [x]
  | var _ | uniform _ => []
  | components e _ => e.literals
  | binary _ left right => left.literals ++ right.literals
  | group e => e.literals
  | builtin _ arguments => literalsOfAll arguments
  | call _ input coords => input.literals ++ coords.literals

def literalsOfAll : List Expression → List Single
  | [] => []
  | e :: rest => e.literals ++ literalsOfAll rest

end

attribute [simp] literals literalsOfAll

section

variable {e e' : Expression}

@[simp] theorem literals_add : (e + e').literals = e.literals ++ e'.literals := rfl

@[simp] theorem literals_sub : (e - e').literals = e.literals ++ e'.literals := rfl

@[simp] theorem literals_mul : (e * e').literals = e.literals ++ e'.literals := rfl

@[simp] theorem literals_div : (e / e').literals = e.literals ++ e'.literals := rfl

@[simp] theorem literals_input : input.literals = [] := rfl

@[simp] theorem literals_coords : coords.literals = [] := rfl

@[simp] theorem literals_named (x : Local) : (named x).literals = [] := rfl

@[simp] theorem literals_one : one.literals = [1] := rfl

@[simp] theorem literals_zero : zero.literals = [0] := rfl

@[simp] theorem literals_opaqueWhite : opaqueWhite.literals = [1] := rfl

@[simp] theorem literals_transparent : transparent.literals = [0] := rfl

@[simp] theorem literals_alpha : e.alpha.literals = e.literals := by
  simp [alpha]

@[simp] theorem literals_rgb : e.rgb.literals = e.literals := by
  simp [rgb]

@[simp] theorem literals_saturate : e.saturate.literals = e.literals := by
  simp [saturate]

@[simp] theorem literals_callOrInput (f : Option FunctionName) :
    (callOrInput f e).literals = e.literals := by
  cases f <;> simp [callOrInput, callAt]

/-- A coordinate and an input without literals of their own. -/
theorem literals_callAt (he : e.literals = []) (he' : e'.literals = []) (f : Option FunctionName) :
    (callAt e f e').literals = [] := by
  cases f <;> simp [callAt, he, he']

@[simp] theorem literals_ofColor (c : Color Single) : (ofColor c).literals = c.toList := rfl

end

end Expression

def Statement.literals : Statement → List Single
  | declare _ e | declareVar _ e | assign _ e | assignComponent _ _ e | result e => e.literals

def GeneratedFunction.literals (f : GeneratedFunction) : List Single :=
  f.body.flatMap Statement.literals

/-- The numbers that are written whatever the parameters are. -/
def constants : List Single := [0, 1, leastSquaredLength]

/-- The constants of the program text are finite. -/
theorem isFinite_of_mem_constants {x : Single} (hx : x ∈ constants) : x.isFinite := by
  have hall : ∀ x, x ∈ constants → x.isFinite := by decide
  exact hall x hx

@[simp] theorem zero_mem_constants : (0 : Single) ∈ constants := List.mem_cons_self

@[simp] theorem one_mem_constants : (1 : Single) ∈ constants :=
  List.mem_cons_of_mem _ List.mem_cons_self

@[simp] theorem leastSquaredLength_mem_constants : leastSquaredLength ∈ constants := by
  simp [constants]

end Shader

open Shader Expression

/-- The numbers that a kind makes part of the program. -/
def Kind.literals : Kind → List Single
  | overrideInput c true => c.toList
  | _ => []

namespace Shader

/-- Swizzling writes no numbers but constants. -/
theorem literals_swizzled_subset (x : Local) (s : Swizzle) :
    (swizzled (named x) s).literals ⊆ constants := by
  have hchannel : ∀ c : Channel, (channel (named x) c).literals ⊆ constants := by
    intro c
    cases c <;> simp [channel]
  unfold swizzled
  split
  · simp
  · simp [Swizzle.toList, hchannel]

/-- Blending writes no numbers but constants. -/
theorem literals_blended_subset (mode : BlendMode) (x y : Local) :
    (blended mode (named x) (named y)).literals ⊆ constants := by
  cases mode <;> simp [blended]

/-- The steps around a color matrix write no numbers but constants. -/
theorem literals_colorMatrixSteps_subset (m : ColorMatrix) (u v : UniformName) :
    (colorMatrixSteps m (uniform u) (uniform v)).flatMap Statement.literals ⊆ constants := by
  obtain ⟨_, _, _, _, unpremul, clamp, premul⟩ := m
  cases unpremul <;> cases clamp <;> cases premul <;>
    simp [colorMatrixSteps, Statement.literals]

theorem literals_blendOperand_subset (behavior : BlendBehavior) (f : Option FunctionName) :
    (blendOperand behavior f).literals ⊆ constants := by
  cases f <;> cases behavior <;> simp [blendOperand, probe]

/-- A body has no literals but those of its effect and the ones that are always the same. -/
theorem literals_body_subset (kind : Kind) (f : FunctionName)
    (operands : List (Option FunctionName)) :
    (body kind f operands).flatMap Statement.literals ⊆ constants ++ kind.literals := by
  cases kind with
  | color | destColor => simp [body, Statement.literals]
  | overrideInput c specialized =>
    cases specialized <;> simp [body, Statement.literals, Kind.literals]
  | swizzle s =>
    simp [body, Statement.literals, literals_swizzled_subset]
  | premul | compose | linearGradient =>
    simp [body, Statement.literals]
  | blend mode behavior =>
    cases behavior <;>
      simp [body, Statement.literals, literals_blended_subset, literals_blendOperand_subset]
  | colorMatrix m =>
    simp [body, Statement.literals, literals_colorMatrixSteps_subset]
  | clamp toAlpha =>
    cases toAlpha <;> simp [body, Statement.literals]
  | deviceSpace =>
    have hcall := literals_callAt (e := components (var .fragCoord) [.x, .y]) (by simp)
      literals_input operands[0]?.join
    simp [body, Statement.literals, hcall]
  | matrix m =>
    let point := components (named .p) [.x, .y]
    have hcall := literals_callAt (e := point) rfl literals_input operands[0]?.join
    have hcall' := literals_callAt (e := point / components (named .p) [.z]) rfl literals_input
      operands[0]?.join
    cases h : m.hasPerspective
    · simp [body, Statement.literals, h, hcall, point]
    · simp [body, Statement.literals, h, hcall', point]

/-- The text of a color whose channels are literals. -/
def colorLiteral (c : Color Single) : String :=
  "vec4<f32>(" ++ ", ".intercalate (c.toList.map literalText) ++ ")"

/-- A color is written with its four channels. -/
theorem text_ofColor (c : Color Single) : (ofColor c).text = colorLiteral c := by
  have htexts : texts (c.toList.map literal) = c.toList.map literalText := rfl
  rw [ofColor, text, htexts]
  rfl

theorem infix_join {s : String} {texts : List String} (h : s ∈ texts) :
    s.toList <:+: (String.join texts).toList := by
  rw [String.toList_join, List.flatMap_def]
  exact List.infix_of_mem_flatten (List.mem_map_of_mem h)

/-- The input of a call appears in its text. -/
theorem infix_text_callOrInput (f : Option FunctionName) (e : Expression) :
    e.text.toList <:+: (callOrInput f e).text.toList := by
  cases f with
  | none => exact List.infix_rfl
  | some f =>
    simp only [callOrInput, callAt, text, String.toList_append]
    exact List.infix_append_of_infix_left (List.infix_append_of_infix_left
      (List.infix_append_of_infix_left List.infix_append_right))

/-- The function of an override whose color is part of the program contains the color. -/
theorem infix_text_override {c : Color Single} {s : Site} (h : s.kind = .overrideInput c true) :
    (colorLiteral c).toList <:+: s.generated.text.toList := by
  have hbody : s.generated.body =
      [.result (callOrInput s.operands[0]?.join (ofColor c))] := by
    rw [Site.generated, h]
    rfl
  have hresult : (colorLiteral c).toList <:+:
      ("    " ++ (Statement.result (callOrInput s.operands[0]?.join (ofColor c))).text ++
        "\n").toList := by
    simp only [Statement.text, String.toList_append]
    refine List.infix_append_of_infix_left (List.infix_append_of_infix_right
      (List.infix_append_of_infix_left (List.infix_append_of_infix_right ?_)))
    rw [← text_ofColor]
    exact infix_text_callOrInput _ _
  have hline : ("    " ++ (Statement.result (callOrInput s.operands[0]?.join (ofColor c))).text ++
      "\n") ∈ s.generated.body.map fun statement => "    " ++ statement.text ++ "\n" := by
    rw [hbody]
    exact List.mem_singleton.mpr rfl
  rw [GeneratedFunction.text, String.toList_append, String.toList_append]
  exact List.infix_append_of_infix_left
    (List.infix_append_of_infix_right (hresult.trans (infix_join hline)))

end Shader

/-- The text of a function is part of that of the program. -/
theorem ShaderSource.infix_text {s : ShaderSource} {f : GeneratedFunction}
    (hf : f ∈ s.functions) : f.text.toList <:+: s.text.toList := by
  have hline : "\n" ++ f.text ∈ s.functions.map fun f => "\n" ++ f.text :=
    List.mem_map.mpr ⟨f, hf, rfl⟩
  have hjoin := infix_join hline
  simp only [String.toList_append] at hjoin
  unfold ShaderSource.text
  simp only [String.toList_append]
  exact List.infix_append_of_infix_left
    (List.infix_append_of_infix_right (List.infix_append_right.trans hjoin))

namespace Program

variable {root : Node} {options : ProgramOptions}

/-- A literal of a program is one that is always the same, or a channel of an override. -/
theorem mem_literals {f : GeneratedFunction} (hf : f ∈ (laidOut root options).source.functions)
    {x : Single} (hx : x ∈ f.literals) :
    x ∈ constants ∨ ∃ path n c, root.at? path = some n ∧ n.kind = .overrideInput c true ∧
      x ∈ c.toList := by
  obtain ⟨s, hs, rfl⟩ := List.mem_map.mp hf
  obtain ⟨path, n, k, hn, _, rfl⟩ := Node.exists_at?_of_mem_sites hs
  refine (List.mem_append.mp (literals_body_subset _ _ _ hx)).imp_right fun hx => ?_
  cases hkind : n.kind with
  | overrideInput c specialized =>
    simp only [Node.site, hkind] at hx
    cases specialized with
    | false => cases hx
    | true => exact ⟨path, n, c, hn, hkind, hx⟩
  | _ =>
    simp only [Node.site, hkind] at hx
    cases hx

/-- An override whose color is part of the program has a function that says so. -/
theorem exists_function_override {path : Node.Path} {n : Node} {c : Color Single}
    (hn : root.at? path = some n) (hkind : n.kind = .overrideInput c true) :
    ∃ f, f ∈ (laidOut root options).source.functions ∧
      (colorLiteral c).toList <:+: f.text.toList ∧ f.literals = c.toList := by
  obtain ⟨k, _, hsites⟩ := Node.at?_laidOut hn 0
  have hsite : n.site k ∈ root.sites 0 := hsites (n.site_mem_sites k)
  refine ⟨_, List.mem_map_of_mem hsite, infix_text_override hkind, ?_⟩
  simp [GeneratedFunction.literals, Site.generated, Node.site, hkind, body, Statement.literals]

/-- What the literals of a program mean. The color of each override that is part of the program
stands in the text, and a channel of it is a well-formed literal, which is read as the channel bit
for bit, exactly if it is finite. So all literals of the program are well-formed and are read as the
numbers that they were made of exactly if the colors of all these overrides are finite; nothing else
that a tree consists of can get in the way. -/
theorem literals_read_back {p : Program} (hp : Program.ofNode root options = .ok p) :
    (∀ path n c, root.at? path = some n → n.kind = .overrideInput c true →
      (colorLiteral c).toList <:+: p.text.toList ∧
      ∀ x, x ∈ c.toList → (IsFloatLiteral (literalText x) ↔ x.isFinite) ∧
        ∀ y, Ieee.ofText (literalText x) = .ok y ↔ x.isFinite ∧ y = x) ∧
    ((∀ f, f ∈ p.source.functions → ∀ x, x ∈ f.literals →
      IsFloatLiteral (literalText x) ∧ Ieee.ofText (literalText x) = .ok x) ↔
        ∀ path n c, root.at? path = some n → n.kind = .overrideInput c true → c.isFinite) := by
  obtain ⟨_, _, rfl⟩ := Program.ofNode_eq_ok_iff.mp hp
  refine ⟨fun path n c hn hkind => ⟨?_, fun x _ => ⟨isFloatLiteral_literalText, fun _ =>
    ofText_literalText⟩⟩, fun h path n c hn hkind => ?_, fun h f hf x hx => ?_⟩
  · obtain ⟨f, hf, htext, _⟩ := @exists_function_override root options _ _ _ hn hkind
    exact htext.trans (ShaderSource.infix_text hf)
  · obtain ⟨f, hf, _, hliterals⟩ := @exists_function_override root options _ _ _ hn hkind
    refine List.all_eq_true.mpr fun x hx => ?_
    exact isFloatLiteral_literalText.mp (h f hf x (hliterals ▸ hx)).1
  · have hfinite : x.isFinite := by
      rcases mem_literals hf hx with hx | ⟨path, n, c, hn, hkind, hx⟩
      · exact isFinite_of_mem_constants hx
      · exact List.all_eq_true.mp (h path n c hn hkind) x hx
    exact ⟨isFloatLiteral_literalText.mpr hfinite, ofText_literalText.mpr ⟨hfinite, rfl⟩⟩

/-- A white whose input is a color that is part of the program. -/
def whiteOver (c : Color Single) : Node :=
  .unary ⟨1⟩ (.overrideInput c true) ⟨c.isOpaque, true⟩
    (some (.leaf ⟨0⟩ (.color .white) ⟨true, true⟩)) .passThrough

theorem reachable_whiteOver (c : Color Single) :
    Pool.Reachable (· = .call) ⟨[whiteOver c], ⟨2⟩⟩ := by
  have hwhite : Pool.Step .call .empty ⟨[.leaf ⟨0⟩ (.color .white) ⟨true, true⟩], ⟨1⟩⟩ :=
    @Pool.Step.call [] [] _ _ (.source (.color .white)) (some _) (.refl _) rfl
  have hover : Pool.Step .call ⟨[.leaf ⟨0⟩ (.color .white) ⟨true, true⟩], ⟨1⟩⟩
      ⟨[whiteOver c], ⟨2⟩⟩ :=
    @Pool.Step.call _ [] _ _ (.modify (.overrideInput c false) (some _)) (some (whiteOver c))
      (.refl _) rfl
  exact .step (.step .empty rfl hwhite) rfl hover

theorem ofNode_whiteOver (c : Color Single) :
    Program.ofNode (whiteOver c) .standard = .ok (laidOut (whiteOver c) .standard) :=
  Program.ofNode_eq_ok_iff.mpr ⟨rfl, fun h => (by cases h), rfl⟩

/-- A tenth, a negative zero and a number that is written with an exponent are read back. -/
theorem literals_read_back_tenth :
    let c : Color Single := ⟨Ieee.ofUInt32 0x3dcccccd, -0, Ieee.ofUInt32 0x33d6bf95, 1⟩
    ∃ p, Program.ofNode (whiteOver c) .standard = .ok p ∧
      (colorLiteral c).toList <:+: p.text.toList ∧
      ∀ x, x ∈ c.toList → Ieee.ofText (literalText x) = .ok x := by
  intro c
  have hfinite : ∀ x, x ∈ c.toList → x.isFinite := by decide
  obtain ⟨htext, hchannels⟩ := (literals_read_back (ofNode_whiteOver c)).1 [] _ c rfl rfl
  exact ⟨_, ofNode_whiteOver c, htext, fun x hx => ((hchannels x hx).2 x).mpr ⟨hfinite x hx, rfl⟩⟩

/-- The public constructors take any color as an override. The program of one with an infinite
channel is generated, and has something there that is no literal. -/
theorem literals_unreadable :
    ¬∀ (pool : Pool) (root : Node) (options : ProgramOptions) (p : Program),
      Pool.Reachable (· = .call) pool → root ∈ pool.trees → Program.ofNode root options = .ok p →
      ∀ path n c, root.at? path = some n → n.kind = .overrideInput c true →
        ∀ x, x ∈ c.toList →
          IsFloatLiteral (literalText x) ∧ Ieee.ofText (literalText x) = .ok x := by
  intro h
  have hliteral := h _ _ .standard _ (reachable_whiteOver ⟨1 / 0, 0, 0, 1⟩)
    (List.mem_singleton.mpr rfl) (ofNode_whiteOver _) [] _ _ rfl rfl (1 / 0) List.mem_cons_self
  exact absurd (isFloatLiteral_literalText.mp hliteral.1) (by decide)

end Program

end PixelEffect
