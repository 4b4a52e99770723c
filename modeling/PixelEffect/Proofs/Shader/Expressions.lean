import PixelEffect.Proofs.Shader.Semantics

namespace PixelEffect.Shader

namespace Value

variable {c d : Color ℚ} {x y z w : ℚ}

@[simp] theorem toColor?_ofColor : (ofColor c).toColor? = some c := rfl

@[simp] theorem toPoint?_ofPoint {p : ℚ × ℚ} : (ofPoint p).toPoint? = some p := rfl

@[simp] theorem alike_ofColor : alike (ofColor c) (ofColor d) = true := rfl

@[simp] theorem alpha_ofColor : (ofColor c).components [.a] = some (number c.a) := rfl

@[simp] theorem rgb_ofColor : (ofColor c).components [.r, .g, .b] = some (vector [c.r, c.g, c.b]) :=
  rfl

@[simp] theorem construct_number_three : construct 3 [number x] = some (vector [x, x, x]) := rfl

@[simp] theorem construct_numbers :
    construct 4 [number x, number y, number z, number w] = some (ofColor ⟨x, y, z, w⟩) := rfl

@[simp] theorem construct_rgb_alpha :
    construct 4 [vector [x, y, z], number w] = some (ofColor ⟨x, y, z, w⟩) := rfl

/-- The smaller channels of a color and opaque white. -/
@[simp] theorem pointwise_min_white :
    pointwise min (ofColor c) (ofColor .white) = some (ofColor (c.map Scalar.atMostOne)) := by
  have hzip : c.zipWith min .white = c.map Scalar.atMostOne := by
    simp [Color.zipWith, Color.map, Color.white, Scalar.atMostOne_rat]
  rw [← hzip]
  rfl

@[simp] theorem map_saturate :
    (ofColor c).map (fun x => min (max x 0) 1) = some (ofColor c.saturate) := by
  have hmap : c.map (fun x => min (max x 0) 1) = c.saturate := by
    simp [Color.saturate, Color.map, Scalar.unit_rat]
  rw [← hmap]
  rfl

@[simp] theorem map_saturate_number :
    (number x).map (fun x => min (max x 0) 1) = some (number (Scalar.unit x)) := by
  rw [Scalar.unit_rat]
  rfl

end Value

namespace Renderer

open Value

variable {r : Renderer} {c d : Color ℚ} {x y : ℚ}

@[simp] theorem operator_add_colors :
    r.operator .add (ofColor c) (ofColor d) = some (ofColor (c.add d)) := rfl

@[simp] theorem operator_sub_colors :
    r.operator .sub (ofColor c) (ofColor d) = some (ofColor (c.add (d.scale (-1)))) := by
  have hzip : c.zipWith (· - ·) d = c.add (d.scale (-1)) := by
    simp [Color.zipWith, Color.add, Color.scale, Color.map, sub_eq_add_neg]
  rw [← hzip]
  rfl

@[simp] theorem operator_mul_colors :
    r.operator .mul (ofColor c) (ofColor d) = some (ofColor (c.mul d)) := rfl

@[simp] theorem operator_mul_color_number :
    r.operator .mul (ofColor c) (number x) = some (ofColor (c.scale x)) := rfl

@[simp] theorem operator_mul_number_color :
    r.operator .mul (number x) (ofColor c) = some (ofColor (c.scale x)) := by
  have hmap : c.map (x * ·) = c.scale x := by
    simp [Color.scale, Color.map, mul_comm]
  rw [← hmap]
  rfl

@[simp] theorem operator_sub_numbers :
    r.operator .sub (number x) (number y) = some (number (x - y)) := rfl

@[simp] theorem operator_equal_numbers :
    r.operator .equal (number x) (number y) = some (truth (x = y)) := rfl

end Renderer

namespace Expression

open Value

variable {context : Context} {locals : Locals} {e e' : Expression} {c d : Color ℚ}

@[simp] theorem eval_literal {x : Single} :
    (literal x).eval context locals = some (number x.toRat) := rfl

@[simp] theorem eval_uniform {u : UniformName} :
    (uniform u).eval context locals = context.uniform u := rfl

@[simp] theorem eval_var {x : Variable} :
    (var x).eval context locals = x.value? context locals := rfl

@[simp] theorem eval_components {cs : List Component} :
    (components e cs).eval context locals = (do (← e.eval context locals).components cs) := rfl

@[simp] theorem eval_group : (group e).eval context locals = e.eval context locals := rfl

@[simp] theorem eval_builtin {f : Builtin} {es : List Expression} :
    (builtin f es).eval context locals = (do f.value? (← evalAll context locals es)) := rfl

@[simp] theorem evalAll_nil : evalAll context locals [] = some [] := rfl

@[simp] theorem evalAll_cons {es : List Expression} : evalAll context locals (e :: es) =
    (do return (← e.eval context locals) :: (← evalAll context locals es)) := rfl

@[simp] theorem eval_equal : (binary .equal e e').eval context locals = (do
    context.renderer.operator .equal (← e.eval context locals) (← e'.eval context locals)) := rfl

/-- A call takes a color and a place and yields a color. -/
theorem eval_call {f : FunctionName} : (call f e e').eval context locals = (do
    let color ← context.call f (← (← e.eval context locals).toColor?)
      (← (← e'.eval context locals).toPoint?)
    return Value.ofColor color) := rfl

@[simp] theorem eval_add : (e + e').eval context locals = (do
    context.renderer.operator .add (← e.eval context locals) (← e'.eval context locals)) := rfl

@[simp] theorem eval_sub : (e - e').eval context locals = (do
    context.renderer.operator .sub (← e.eval context locals) (← e'.eval context locals)) := rfl

@[simp] theorem eval_mul : (e * e').eval context locals = (do
    context.renderer.operator .mul (← e.eval context locals) (← e'.eval context locals)) := rfl

@[simp] theorem eval_div : (e / e').eval context locals = (do
    context.renderer.operator .div (← e.eval context locals) (← e'.eval context locals)) := rfl

@[simp] theorem eval_one : one.eval context locals = some (number 1) := by
  rw [one, eval_literal, Ieee.toRat_one]

@[simp] theorem eval_zero : zero.eval context locals = some (number 0) := by
  rw [zero, eval_literal, Ieee.toRat_zero]

@[simp] theorem eval_named {x : Local} :
    (named x).eval context locals = (locals x).map Binding.value := rfl

@[simp] theorem eval_input : input.eval context locals = some (Value.ofColor context.input) :=
  rfl

@[simp] theorem eval_coords : coords.eval context locals = some (ofPoint context.coords) := rfl

@[simp] theorem eval_alpha :
    e.alpha.eval context locals = (do (← e.eval context locals).components [.a]) := rfl

@[simp] theorem eval_rgb :
    e.rgb.eval context locals = (do (← e.eval context locals).components [.r, .g, .b]) := rfl

@[simp] theorem eval_saturate : e.saturate.eval context locals =
    (do (← e.eval context locals).map fun x => min (max x 0) 1) := by
  rw [saturate, eval_builtin]
  cases he : e.eval context locals <;> simp [he, Builtin.value?]

@[simp] theorem eval_opaqueWhite :
    opaqueWhite.eval context locals = some (Value.ofColor .white) := by
  simp only [opaqueWhite, eval_builtin, evalAll_cons, evalAll_nil, eval_one, Builtin.value?]
  rfl

@[simp] theorem eval_transparent :
    transparent.eval context locals = some (Value.ofColor .transparent) := by
  simp only [transparent, eval_builtin, evalAll_cons, evalAll_nil, eval_zero, Builtin.value?]
  rfl

/-- A color in the text of a program is the color itself. -/
@[simp] theorem eval_ofColor {c : Color Single} :
    (ofColor c).eval context locals = some (Value.ofColor (.ofSingle c)) := by
  simp only [ofColor, Color.toList, List.map, eval_builtin, evalAll_cons, evalAll_nil, eval_literal,
    Builtin.value?]
  rfl

/-- The expression for a mode computes what the mode makes of its operands. -/
theorem eval_blended {mode : BlendMode} (he : e.eval context locals = some (Value.ofColor c))
    (he' : e'.eval context locals = some (Value.ofColor d)) :
    (blended mode e e').eval context locals = some (Value.ofColor (mode.apply c d)) := by
  cases mode <;> simp [blended, BlendMode.apply, he, he', Builtin.value?]

/-- A channel of an expression is that channel of its color. -/
theorem eval_channel (he : e.eval context locals = some (Value.ofColor c)) (channel : Channel) :
    (Shader.channel e channel).eval context locals = some (number (channel.pick c)) := by
  cases channel <;> simp only [Shader.channel, eval_components, he, eval_zero, eval_one] <;> rfl

theorem evalAll_channels (he : e.eval context locals = some (Value.ofColor c))
    (channels : List Channel) : evalAll context locals (channels.map (Shader.channel e)) =
      some (channels.map fun channel => number (channel.pick c)) := by
  induction channels with
  | nil => rfl
  | cons channel rest ih => simp [eval_channel he, ih]

/-- Channels that are components of a color are found in the color. -/
theorem mapM_index_of_component? {channels : List Channel} {cs : List Component}
    (h : channels.mapM component? = some cs) :
    (cs.mapM fun k => c.toList[k.index]?) = some (channels.map fun channel => channel.pick c) := by
  induction channels generalizing cs with
  | nil =>
    cases h
    rfl
  | cons channel rest ih =>
    rw [List.mapM_cons] at h
    obtain ⟨k, hk, h⟩ := Option.bind_eq_some_iff.mp h
    obtain ⟨ks, hks, h⟩ := Option.bind_eq_some_iff.mp h
    cases h
    have hpick : c.toList[k.index]? = some (channel.pick c) := by
      cases channel <;> cases hk <;> rfl
    simp [hpick, ih hks]

/-- The expression for a swizzle computes the swizzled color. -/
theorem eval_swizzled {s : Swizzle} (he : e.eval context locals = some (Value.ofColor c)) :
    (swizzled e s).eval context locals = some (Value.ofColor (s.apply c)) := by
  unfold swizzled
  split
  · rename_i cs hcs
    have hindex := mapM_index_of_component? (c := c) hcs
    simp only [eval_components, he, Value.ofColor, Value.components, Option.bind_eq_bind,
      Option.bind_some, hindex]
    rfl
  · simp only [eval_builtin, evalAll_channels he, Builtin.value?]
    rfl

end Expression

end PixelEffect.Shader
