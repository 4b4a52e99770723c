import Mathlib.Tactic.Ring
import PixelEffect.Proofs.Shader.Expressions
import PixelEffect.Proofs.Shader.Values

namespace PixelEffect.Shader

open Value Expression

namespace Locals

variable {locals : Locals} {x y : Local} {b b' : Binding}

@[simp] theorem set_self : locals.set x b x = some b := by
  rw [set, if_pos rfl]

@[simp] theorem set_of_ne (h : y ≠ x) : locals.set x b y = locals y := by
  rw [set, if_neg h]

@[simp] theorem set_set : (locals.set x b).set x b' = locals.set x b' := by
  funext y
  unfold set
  split <;> rfl

end Locals

section Statements

variable {context : Context} {locals : Locals} {x : Local} {e : Expression} {v w : Value}
  {rest : List Statement}

/-- A new constant gets a value once and for all. -/
theorem run_declare (he : e.eval context locals = some v) (hx : locals x = none) :
    runStatements context locals (.declare x e :: rest) =
      runStatements context (locals.set x ⟨v, false⟩) rest := by
  simp [runStatements, Locals.declare, he, hx]

/-- A new variable gets a value that may be changed. -/
theorem run_declareVar (he : e.eval context locals = some v) (hx : locals x = none) :
    runStatements context locals (.declareVar x e :: rest) =
      runStatements context (locals.set x ⟨v, true⟩) rest := by
  simp [runStatements, Locals.declare, he, hx]

/-- A variable takes another value of the same type. -/
theorem run_assign (he : e.eval context (locals.set x ⟨v, true⟩) = some w)
    (halike : alike v w = true) :
    runStatements context (locals.set x ⟨v, true⟩) (.assign x e :: rest) =
      runStatements context (locals.set x ⟨w, true⟩) rest := by
  simp [runStatements, Locals.assign, he, halike]

/-- A single component of a variable takes another value. -/
theorem run_assignComponent {k : Component} {u : Value}
    (he : e.eval context (locals.set x ⟨v, true⟩) = some u) (hset : setComponent k v u = some w)
    (halike : alike v w = true) :
    runStatements context (locals.set x ⟨v, true⟩) (.assignComponent x k e :: rest) =
      runStatements context (locals.set x ⟨w, true⟩) rest := by
  simp [runStatements, Locals.assign, Variable.value?, he, hset, halike]

/-- Nothing is run behind the result. -/
theorem run_result : runStatements context locals (.result e :: rest) = e.eval context locals := rfl

end Statements

section ColorMatrix

variable {context : Context} {c : Color ℚ} {rest : List Statement}

/-- The locals of a body that names nothing but a color, which it may assign to. -/
def holding (c : Color ℚ) : Locals := Locals.empty.set .c ⟨ofColor c, true⟩

@[simp] theorem holding_c : holding c .c = some ⟨ofColor c, true⟩ := Locals.set_self

/-- The color variable takes another color. -/
theorem run_assign_color {e : Expression} {d : Color ℚ}
    (he : e.eval context (holding c) = some (ofColor d)) :
    runStatements context (holding c) (.assign .c e :: rest) =
      runStatements context (holding d) rest :=
  run_assign he alike_ofColor

theorem run_declareVar_color {e : Expression} (he : e.eval context .empty = some (ofColor c)) :
    runStatements context .empty (.declareVar .c e :: rest) =
      runStatements context (holding c) rest :=
  run_declareVar he rfl

/-- Where alpha is zero, the quotient by alpha is computed but not used. -/
theorem eval_unpremul :
    (builtin .select
      [builtin .vec4 [(named .c).rgb / (named .c).alpha, (named .c).alpha], transparent,
        binary .equal (named .c).alpha zero]).eval context (holding c) =
      some (Value.ofColor ⟨c.unpremul.r, c.unpremul.g, c.unpremul.b, c.unpremul.a⟩) := by
  have hquotient : ∀ a, context.renderer.operator .div (vector [c.r, c.g, c.b]) (number a) =
      some (vector [context.renderer.divide c.r a, context.renderer.divide c.g a,
        context.renderer.divide c.b a]) := fun _ => rfl
  by_cases ha : c.a = 0
  · have hunpremul : c.unpremul = ⟨0, 0, 0, 0⟩ := by
      rw [Color.unpremul, Scalar.eq_rat, decide_eq_true ha, if_pos rfl]
    simp [Builtin.value?, hquotient, hunpremul, ha, Color.transparent]
  · have hunpremul : c.unpremul = ⟨c.r / c.a, c.g / c.a, c.b / c.a, c.a⟩ := by
      simp [Color.unpremul, Scalar.eq_rat, ha, div_eq_mul_inv]
    simp [Builtin.value?, hquotient, hunpremul, ha, Renderer.divide]

/-- A matrix times a color is the sum of the columns, each scaled by a channel of the color. -/
theorem operator_mul_matrix_color {r : Renderer} (red green blue alpha : Color ℚ) :
    r.operator .mul (matrix [red.toList, green.toList, blue.toList, alpha.toList])
      (Value.ofColor c) =
      some (Value.ofColor ((((red.scale c.r).add (green.scale c.g)).add (blue.scale c.b)).add
        (alpha.scale c.a))) := by
  have htransform : r.operator .mul (matrix [red.toList, green.toList, blue.toList, alpha.toList])
      (Value.ofColor c) = transform [red.toList, green.toList, blue.toList, alpha.toList] c.toList :=
    rfl
  rw [htransform]
  simp [transform, Color.toList, Color.scale, Color.add, Color.map, Color.zipWith, Value.ofColor]

/-- The linear part and the offsets of a color matrix transform the color variable. -/
theorem eval_transform {m : ColorMatrix} {linear offset : UniformName}
    (hlinear : context.uniform linear = ofUniform .mat4 (m.columns.map Ieee.toRat))
    (hoffset : context.uniform offset = ofUniform .vec4 (m.offsets.map Ieee.toRat)) :
    (uniform linear * named .c + uniform offset).eval context (holding c) =
      some (Value.ofColor (m.transform c.r c.g c.b c.a)) := by
  let column (row : ColorRow → Single) : Color ℚ :=
    .ofSingle ⟨row m.red, row m.green, row m.blue, row m.alpha⟩
  have hcolumns : ofUniform .mat4 (m.columns.map Ieee.toRat) =
      some (matrix [(column (·.r)).toList, (column (·.g)).toList, (column (·.b)).toList,
        (column (·.a)).toList]) := rfl
  have hoffsets : ofUniform .vec4 (m.offsets.map Ieee.toRat) =
      some (Value.ofColor (column (·.offset))) := rfl
  rw [hcolumns] at hlinear
  rw [hoffsets] at hoffset
  simp only [eval_add, eval_mul, eval_uniform, hlinear, hoffset, eval_named, holding_c,
    Option.map_some, Option.bind_eq_bind, Option.bind_some, operator_mul_matrix_color,
    Renderer.operator_add_colors]
  rfl

/-- A step that only some matrices ask for. -/
theorem run_optional {d : Color ℚ} {steps : List Statement} (taken : Bool)
    (h : runStatements context (holding c) (steps ++ rest) =
      runStatements context (holding d) rest) :
    runStatements context (holding c) ((if taken then steps else []) ++ rest) =
      runStatements context (holding (if taken then d else c)) rest := by
  cases taken
  · rfl
  · exact h

/-- What is clamped behind a color matrix is the color or its alpha. -/
theorem run_clampOutput (clampRgb : Bool) :
    runStatements context (holding c)
      ((if clampRgb then [.assign .c (named .c).saturate]
        else [.assignComponent .c .a (named .c).alpha.saturate]) ++ rest) =
      runStatements context
        (holding (if clampRgb then c.saturate else { c with a := Scalar.unit c.a })) rest := by
  cases clampRgb with
  | true => exact run_assign_color (by simp)
  | false =>
    have he : (named .c).alpha.saturate.eval context (holding c) =
        some (number (Scalar.unit c.a)) := by simp
    exact run_assignComponent he rfl alike_ofColor

/-- Each step leaves the locals holding one color, and the last one is the output of the matrix. -/
theorem run_colorMatrixSteps {m : ColorMatrix} {linear offset : UniformName}
    (hlinear : context.uniform linear = ofUniform .mat4 (m.columns.map Ieee.toRat))
    (hoffset : context.uniform offset = ofUniform .vec4 (m.offsets.map Ieee.toRat)) :
    runStatements context (holding c)
      (colorMatrixSteps m (uniform linear) (uniform offset) ++ rest) =
      runStatements context (holding (m.apply c)) rest := by
  have hpremul : ∀ d : Color ℚ,
      (builtin .vec4 [(named .c).rgb * (named .c).alpha, (named .c).alpha]).eval context
        (holding d) = some (Value.ofColor ⟨d.r * d.a, d.g * d.a, d.b * d.a, d.a⟩) := by
    intro d
    have hscale : context.renderer.operator .mul (vector [d.r, d.g, d.b]) (number d.a) =
        some (vector [d.r * d.a, d.g * d.a, d.b * d.a]) := rfl
    simp [Builtin.value?, hscale]
  simp only [colorMatrixSteps, List.append_assoc]
  -- In the order of the text: unpremultiply, transform, clamp, premultiply.
  rw [run_optional m.unpremulInput (run_assign_color eval_unpremul), List.singleton_append,
    run_assign_color (eval_transform hlinear hoffset), run_clampOutput,
    run_optional m.premulOutput (run_assign_color (hpremul _)), ColorMatrix.apply]
  cases m.unpremulInput <;> rfl

end ColorMatrix

/-- A function yields what a shade makes of its input, whatever the coordinate. -/
def Calls.Computes (call : Calls) (f : FunctionName) (shade : Shade ℚ) : Prop :=
  ∀ input, ∃ out, shade input = .ok out ∧ ∀ coords, call f input coords = some out

/-- The functions in some slots yield what the shades in the same slots do. -/
def Calls.ComputesAll (call : Calls) (functions : List (Option FunctionName))
    (shades : List (Option (Shade ℚ))) : Prop :=
  ∀ i : Nat, Option.Rel call.Computes functions[i]?.join shades[i]?.join

/-- The uniforms of a function have the values of its kind. -/
def Globals.Feeds (globals : Globals) (f : FunctionName) (kind : Kind) : Prop :=
  ∀ role values, kind.value? role = some values →
    globals.uniform ⟨f, role⟩ = ofUniform role.type (values.map Ieee.toRat)

section Operands

variable {context : Context} {operands : List (Option FunctionName)}
  {shades : List (Option (Shade ℚ))}

/-- A call of an operand yields the output of the operand, wherever it is sampled. -/
theorem eval_callAt (h : context.call.ComputesAll operands shades) (i : Nat) (c : Color ℚ) :
    ∃ out, operandOutput shades i c = .ok out ∧
      ∀ {locals : Locals} {point e : Expression} {p : ℚ × ℚ},
        point.eval context locals = some (ofPoint p) →
        e.eval context locals = some (Value.ofColor c) →
        (callAt point operands[i]?.join e).eval context locals = some (Value.ofColor out) := by
  have hi := h i
  rw [operandOutput]
  generalize operands[i]?.join = f at hi
  generalize shades[i]?.join = s at hi
  cases hi with
  | none => exact ⟨c, rfl, fun _ he => he⟩
  | some hcomputes =>
    obtain ⟨out, hout, hcall⟩ := hcomputes c
    exact ⟨out, hout, fun hpoint he => by simp [eval_call, callAt, he, hpoint, hcall]⟩

/-- The call of an operand yields what the operand makes of the argument, and an absent operand
leaves the argument as it is. -/
theorem eval_callOrInput (h : context.call.ComputesAll operands shades) (i : Nat) (c : Color ℚ) :
    ∃ out, operandOutput shades i c = .ok out ∧
      ∀ {locals : Locals} {e : Expression}, e.eval context locals = some (Value.ofColor c) →
        (callOrInput operands[i]?.join e).eval context locals = some (Value.ofColor out) := by
  obtain ⟨out, hout, hcall⟩ := eval_callAt h i c
  exact ⟨out, hout, fun he => hcall eval_coords he⟩

/-- The operands of a blend look at the color that its behavior gives them. -/
theorem eval_probe {locals : Locals} (behavior : BlendBehavior) :
    (probe behavior).eval context locals =
      some (Value.ofColor (behavior.probe context.input)) := by
  cases behavior <;> simp [probe, BlendBehavior.probe]

/-- An operand of a blend yields its own color, or the input if it is absent. -/
theorem eval_blendOperand (h : context.call.ComputesAll operands shades) (i : Nat)
    (behavior : BlendBehavior) :
    ∃ c, presentOutput? shades i (behavior.probe context.input) = .ok c ∧
      ∀ {locals : Locals}, (blendOperand behavior operands[i]?.join).eval context locals =
        some (Value.ofColor (c.getD context.input)) := by
  have hi := h i
  rw [presentOutput?]
  generalize operands[i]?.join = f at hi
  generalize shades[i]?.join = s at hi
  cases hi with
  | none => exact ⟨none, rfl, eval_input⟩
  | some hcomputes =>
    obtain ⟨out, hout, hcall⟩ := hcomputes (behavior.probe context.input)
    refine ⟨some out, Except.map_eq_ok.mpr ⟨out, hout, rfl⟩, ?_⟩
    simp [eval_call, blendOperand, callOrInput, callAt, eval_probe, hcall]

end Operands

section Body

variable {context : Context} {f : FunctionName} {operands : List (Option FunctionName)}
  {shades : List (Option (Shade ℚ))}

/-- A body that ends with a color has run through. -/
theorem run_eq_some {statements : List Statement} {c : Color ℚ}
    (h : runStatements context .empty statements = some (Value.ofColor c)) :
    context.run statements = some c := by
  rw [Context.run, h]
  rfl

theorem run_premul (hoperands : context.call.ComputesAll operands shades) :
    ∃ out, Kind.premul.output Kind.unknownElsewhere shades context.input = .ok out ∧
      context.run (body .premul f operands) = some out := by
  obtain ⟨c, hc, hcall⟩ := eval_callOrInput hoperands 0 .white
  refine ⟨_, Except.bind_eq_ok.mpr ⟨c, hc, rfl⟩, run_eq_some ?_⟩
  have htinted : (builtin .vec4 [(named .c).rgb * input.rgb, (named .c).alpha]).eval context
      (holding c) = some (Value.ofColor ⟨c.r * context.input.r, c.g * context.input.g,
        c.b * context.input.b, c.a⟩) := by
    have hmul : context.renderer.operator .mul (vector [c.r, c.g, c.b])
        (vector [context.input.r, context.input.g, context.input.b]) =
        some (vector [c.r * context.input.r, c.g * context.input.g, c.b * context.input.b]) := rfl
    simp [Builtin.value?, hmul]
  rw [body, run_declareVar_color (hcall eval_opaqueWhite), run_assign_color htinted, run_result]
  simp only [eval_mul, eval_named, holding_c, Option.map_some, eval_alpha, eval_input,
    Option.bind_eq_bind, Option.bind_some, Value.alpha_ofColor, Renderer.operator_mul_color_number,
    Color.scale, Color.map, Color.mul, Color.zipWith, StraightColor.premul]
  ring_nf

/-- The body for a blend evaluates both operands and blends what they yield. -/
theorem run_blend {mode : BlendMode} {behavior : BlendBehavior}
    (hoperands : context.call.ComputesAll operands shades) :
    ∃ out, (Kind.blend mode behavior).output Kind.unknownElsewhere shades context.input = .ok out ∧
      context.run (body (.blend mode behavior) f operands) = some out := by
  obtain ⟨source, hs, hsource⟩ := eval_blendOperand hoperands 0 behavior
  obtain ⟨destination, hd, hdestination⟩ := eval_blendOperand hoperands 1 behavior
  refine ⟨_, Except.bind_eq_ok.mpr ⟨source, hs, Except.bind_eq_ok.mpr ⟨destination, hd, rfl⟩⟩,
    run_eq_some ?_⟩
  simp only [body]
  rw [run_declare hsource rfl, run_declare hdestination rfl, run_result]
  generalize hlocals : Locals.set _ Local.d _ = locals
  have hblended : (blended mode (named .s) (named .d)).eval context locals =
      some (Value.ofColor
        (mode.apply (source.getD context.input) (destination.getD context.input))) := by
    subst hlocals
    exact eval_blended (by simp) (by simp)
  cases behavior <;> simp [hblended, blendOutputs]

/-- The body for a premultiplied clamp bounds alpha before the other channels. -/
theorem run_clampPremul (hoperands : context.call.ComputesAll operands shades) :
    ∃ out, (Kind.clamp true).output Kind.unknownElsewhere shades context.input = .ok out ∧
      context.run (body (.clamp true) f operands) = some out := by
  obtain ⟨c, hc, hcall⟩ := eval_callOrInput hoperands 0 context.input
  refine ⟨_, Except.bind_eq_ok.mpr ⟨c, hc, c.clampPremul_rat⟩, run_eq_some ?_⟩
  have halpha : (named .c).alpha.saturate.eval context
      (Locals.empty.set .c ⟨Value.ofColor c, false⟩) = some (number (Scalar.unit c.a)) := by simp
  rw [body, run_declare (hcall eval_input) rfl, run_declare halpha rfl, run_result]
  simp [Builtin.value?, pointwise]

/-- Wherever a matrix takes the coordinate to, the operand is sampled at a point. -/
theorem eval_mapped (locals : Locals) {u : UniformName} {m : Matrix3}
    (hu : context.uniform u = ofUniform .mat3 (m.columns.map Ieee.toRat)) :
    ∃ x y z, (uniform u * builtin .vec3 [coords, one]).eval context locals =
      some (vector [x, y, z]) := by
  rw [eval_mul, eval_uniform, hu]
  simp only [eval_builtin, evalAll_cons, evalAll_nil, Builtin.value?, eval_coords, eval_one]
  exact ⟨_, _, _, rfl⟩

/-- The body for a transform of coordinates calls its operand at the transformed place. -/
theorem run_matrix {m : Matrix3} (hoperands : context.call.ComputesAll operands shades)
    (hfeeds : context.Feeds f (.matrix m)) :
    ∃ out, (Kind.matrix m).output Kind.unknownElsewhere shades context.input = .ok out ∧
      context.run (body (.matrix m) f operands) = some out := by
  obtain ⟨out, hout, hcall⟩ := eval_callAt hoperands 0 context.input
  obtain ⟨x, y, z, hp⟩ := eval_mapped .empty (hfeeds .mapping _ rfl)
  refine ⟨out, hout, run_eq_some ?_⟩
  rw [body, run_declare hp rfl, run_result]
  generalize hlocals : Locals.set _ Local.p _ = locals
  have hxy : (components (named .p) [.x, .y]).eval context locals = some (ofPoint (x, y)) := by
    rw [eval_components, eval_named, ← hlocals, Locals.set_self]
    rfl
  have hz : (components (named .p) [.z]).eval context locals = some (number z) := by
    rw [eval_components, eval_named, ← hlocals, Locals.set_self]
    rfl
  cases m.hasPerspective with
  | true =>
    have hdivided : (components (named .p) [.x, .y] / components (named .p) [.z]).eval context
        locals = some (ofPoint (context.renderer.divide x z, context.renderer.divide y z)) := by
      rw [eval_div, hxy, hz]
      rfl
    exact hcall hdivided eval_input
  | false => exact hcall hxy eval_input

/-- The body for a kind computes the output of the kind. The destination and gradients have none. -/
theorem run_body {kind : Kind} (hdestination : kind.effectClass ≠ .destColor)
    (hgradient : kind.effectClass ≠ .linearGradient)
    (hoperands : context.call.ComputesAll operands shades) (hfeeds : context.Feeds f kind)
    (hfragCoord : kind.usesFragCoord → context.fragCoord = some context.renderer.position) :
    ∃ out, kind.output Kind.unknownElsewhere shades context.input = .ok out ∧
      context.run (body kind f operands) = some out := by
  cases kind with
  | destColor => exact absurd rfl hdestination
  | linearGradient => exact absurd rfl hgradient
  | color c => exact ⟨.ofSingle c, rfl, run_eq_some (hfeeds .color _ rfl)⟩
  | overrideInput c specialized =>
    obtain ⟨out, hout, hcall⟩ := eval_callOrInput hoperands 0 (.ofSingle c)
    refine ⟨out, hout, run_eq_some (hcall ?_)⟩
    cases specialized with
    | true => exact eval_ofColor
    | false => exact hfeeds .color _ rfl
  | swizzle s =>
    obtain ⟨c, hc, hcall⟩ := eval_callOrInput hoperands 0 context.input
    refine ⟨s.apply c, Except.map_eq_ok.mpr ⟨c, hc, rfl⟩, run_eq_some ?_⟩
    rw [body, run_declare (hcall eval_input) rfl, run_result]
    exact eval_swizzled (by simp)
  | premul => exact run_premul hoperands
  | compose =>
    obtain ⟨inner, hinner, hcall⟩ := eval_callOrInput hoperands 1 context.input
    obtain ⟨out, hout, hcall'⟩ := eval_callOrInput hoperands 0 inner
    refine ⟨out, Except.bind_eq_ok.mpr ⟨inner, hinner, hout⟩, run_eq_some ?_⟩
    rw [body, run_declare (hcall eval_input) rfl, run_result]
    exact hcall' (by simp)
  | blend mode behavior => exact run_blend hoperands
  | colorMatrix m =>
    obtain ⟨c, hc, hcall⟩ := eval_callOrInput hoperands 0 context.input
    refine ⟨m.apply c, Except.map_eq_ok.mpr ⟨c, hc, rfl⟩, run_eq_some ?_⟩
    rw [body, List.cons_append, run_declareVar_color (hcall eval_input),
      run_colorMatrixSteps (hfeeds .linear _ rfl) (hfeeds .offset _ rfl), run_result]
    simp
  | clamp premul =>
    cases premul with
    | true => exact run_clampPremul hoperands
    | false =>
      obtain ⟨c, hc, hcall⟩ := eval_callOrInput hoperands 0 context.input
      refine ⟨c.saturate, Except.map_eq_ok.mpr ⟨c, hc, rfl⟩, run_eq_some ?_⟩
      rw [body, run_declare (hcall eval_input) rfl, run_result]
      simp
  | deviceSpace =>
    obtain ⟨out, hout, hcall⟩ := eval_callAt hoperands 0 context.input
    have hpoint : ∀ locals, (components (var .fragCoord) [.x, .y]).eval context locals =
        some (ofPoint (context.renderer.x, context.renderer.y)) := by
      intro locals
      simp only [eval_components, eval_var, Variable.value?, hfragCoord rfl]
      rfl
    exact ⟨out, hout, run_eq_some (hcall (hpoint _) eval_input)⟩
  | matrix m => exact run_matrix hoperands hfeeds

end Body

end PixelEffect.Shader
