import PixelEffect.Proofs.Effect.Crafted
import PixelEffect.Proofs.Shader.References

namespace PixelEffect

namespace Shader

/-- The call of a function, if there is one to call. -/
def callUses (f : Option FunctionName) : List Reference :=
  (f.map fun f => .call f.text.toList).toList

@[simp] theorem mem_callUses {f : Option FunctionName} {r : Reference} :
    r ∈ callUses f ↔ ∃ g, f = some g ∧ .call g.text.toList = r := by
  simp [callUses]

namespace Expression

variable {e e' : Expression}

@[simp] theorem uses_add : (e + e').uses = e.uses ++ e'.uses := rfl

@[simp] theorem uses_sub : (e - e').uses = e.uses ++ e'.uses := rfl

@[simp] theorem uses_mul : (e * e').uses = e.uses ++ e'.uses := rfl

@[simp] theorem uses_div : (e / e').uses = e.uses ++ e'.uses := rfl

@[simp] theorem uses_equal : (binary .equal e e').uses = e.uses ++ e'.uses := rfl

@[simp] theorem uses_named (x : Local) : (named x).uses = [] := rfl

@[simp] theorem uses_input : input.uses = [] := rfl

@[simp] theorem uses_coords : coords.uses = [] := rfl

@[simp] theorem uses_literal (x : Single) : (literal x).uses = [] := rfl

@[simp] theorem uses_zero : zero.uses = [] := rfl

@[simp] theorem uses_one : one.uses = [] := rfl

@[simp] theorem uses_opaqueWhite : opaqueWhite.uses = [] := rfl

@[simp] theorem uses_transparent : transparent.uses = [] := rfl

@[simp] theorem uses_ofColor (c : Color Single) : (ofColor c).uses = [] := rfl

@[simp] theorem uses_uniform (u : UniformName) : (uniform u).uses = [.read u.text.toList] := rfl

@[simp] theorem uses_var (x : Variable) : (var x).uses = x.uses := rfl

@[simp] theorem uses_components (cs : List Component) : (components e cs).uses = e.uses := rfl

@[simp] theorem uses_alpha : e.alpha.uses = e.uses := rfl

@[simp] theorem uses_rgb : e.rgb.uses = e.uses := rfl

@[simp] theorem uses_group : (group e).uses = e.uses := rfl

@[simp] theorem uses_builtin (f : Builtin) (es : List Expression) :
    (builtin f es).uses = usesOfAll es := rfl

@[simp] theorem uses_saturate : e.saturate.uses = e.uses := by
  simp [saturate, usesOfAll]

@[simp] theorem uses_callAt (f : Option FunctionName) :
    (callAt e f e').uses = callUses f ++ (e'.uses ++ f.elim [] fun _ => e.uses) := by
  cases f <;> simp [callAt, uses, callUses]

@[simp] theorem uses_callOrInput (f : Option FunctionName) :
    (callOrInput f e).uses = callUses f ++ e.uses := by
  cases f <;> simp [callOrInput]

end Expression

open Expression

/-- Channels of an expression that refers to nothing refer to nothing. -/
theorem uses_swizzled {e : Expression} (he : e.uses = []) (s : Swizzle) :
    (swizzled e s).uses = [] := by
  have hchannel : ∀ c : Channel, (channel e c).uses = [] := by
    intro c
    cases c <;> first | exact he | rfl
  unfold swizzled
  split
  · exact he
  · simp [Swizzle.toList, usesOfAll, hchannel]

/-- Blending refers to its operands only. -/
theorem uses_blended {s d : Expression} (hs : s.uses = []) (hd : d.uses = []) (mode : BlendMode) :
    (blended mode s d).uses = [] := by
  cases mode <;> simp [blended, usesOfAll, hs, hd]

@[simp] theorem uses_probe (behavior : BlendBehavior) : (probe behavior).uses = [] := by
  cases behavior <;> rfl

@[simp] theorem uses_blendOperand (behavior : BlendBehavior) (f : Option FunctionName) :
    (blendOperand behavior f).uses = callUses f := by
  cases f <;> simp [blendOperand, callUses]

/-- A color matrix refers to the linear part and the offsets. -/
theorem uses_colorMatrixSteps (m : ColorMatrix) (linear offset : Expression) :
    (colorMatrixSteps m linear offset).flatMap Statement.uses = linear.uses ++ offset.uses := by
  obtain ⟨_, _, _, _, unpremul, clamp, premul⟩ := m
  cases unpremul <;> cases clamp <;> cases premul <;>
    simp [colorMatrixSteps, Statement.uses, usesOfAll]

/-- What the body of the function `f` refers to. -/
def bodyUses (kind : Kind) (f : FunctionName) (operands : List (Option FunctionName)) :
    List Reference :=
  let call (i : Nat) : List Reference := callUses operands[i]?.join
  let read (role : UniformRole) : Reference := .read (UniformName.mk f role).text.toList
  match kind with
  | .color _ => [read .color]
  | .overrideInput _ specialized => call 0 ++ if specialized then [] else [read .color]
  | .destColor => Variable.destColor.uses
  | .swizzle _ | .premul | .clamp _ => call 0
  | .compose => call 1 ++ call 0
  | .blend .. => call 0 ++ call 1
  | .colorMatrix _ => call 0 ++ [read .linear, read .offset]
  | .deviceSpace => call 0 ++ operands[0]?.join.elim [] fun _ => Variable.fragCoord.uses
  | .matrix _ => read .mapping :: call 0
  | .linearGradient .. =>
    [read .finish, read .start, read .start, read .startColor, read .finishColor]

/-- What a body refers to can be listed from the kind alone. -/
theorem uses_body (kind : Kind) (f : FunctionName) (operands : List (Option FunctionName)) :
    (body kind f operands).flatMap Statement.uses = bodyUses kind f operands := by
  cases kind with
  | color | destColor | premul | compose | linearGradient =>
    simp [body, bodyUses, Statement.uses, usesOfAll]
  | overrideInput c specialized =>
    cases specialized <;> simp [body, bodyUses, Statement.uses]
  | swizzle s => simp [body, bodyUses, Statement.uses, uses_swizzled (uses_named .c) s]
  | blend mode behavior =>
    have hout := uses_blended (uses_named .s) (uses_named .d) mode
    cases behavior <;> simp [body, bodyUses, Statement.uses, hout]
  | colorMatrix m => simp [body, bodyUses, Statement.uses, uses_colorMatrixSteps]
  | clamp premul => cases premul <;> simp [body, bodyUses, Statement.uses, usesOfAll]
  | deviceSpace => simp [body, bodyUses, Statement.uses]
  | matrix m =>
    have hnone : (operands[0]?.join.elim [] fun _ => []) = ([] : List Reference) := by
      cases operands[0]?.join <;> rfl
    cases h : m.hasPerspective <;> simp [body, bodyUses, Statement.uses, usesOfAll, h, hnone]

/-- The name of the function that is called. -/
def Reference.call? : Reference → Option (List Char)
  | call name => some name
  | read _ | global _ | declaration _ => none

/-- The names of the generated functions that a text calls, in order. -/
def calls (text : String) : List (List Char) := (references text).filterMap Reference.call?

end Shader

/-- The operands that the function of a kind calls, in order. -/
def Kind.called : Kind → List Nat
  | color _ | destColor | linearGradient .. => []
  | overrideInput .. | swizzle _ | premul | colorMatrix _ | clamp _ | deviceSpace | matrix _ => [0]
  | compose => [1, 0]
  | blend .. => [0, 1]

/-- Every operand of a kind is called once. -/
theorem Kind.called_perm (kind : Kind) : kind.called.Perm (List.range kind.arity) := by
  cases kind with
  | compose => exact .swap 0 1 []
  | _ => exact .refl _

namespace Shader

variable {kind : Kind} {f : FunctionName} {operands : List (Option FunctionName)} {w : List Char}

/-- The calls in a body are those of the operands that are there. -/
theorem call?_bodyUses (kind : Kind) (f : FunctionName) (operands : List (Option FunctionName)) :
    (bodyUses kind f operands).filterMap Reference.call? =
      (kind.called.filterMap fun i => operands[i]?.join).map fun g => g.text.toList := by
  cases kind with
  | color | destColor | linearGradient => rfl
  | overrideInput c specialized =>
    simp only [bodyUses, Kind.called, List.filterMap_cons]
    cases specialized <;> cases operands[0]?.join <;> rfl
  | swizzle | premul | clamp | colorMatrix | deviceSpace | matrix =>
    simp only [bodyUses, Kind.called, List.filterMap_cons]
    cases operands[0]?.join <;> rfl
  | compose | blend =>
    simp only [bodyUses, Kind.called, List.filterMap_cons]
    cases operands[0]?.join <;> cases operands[1]?.join <;> rfl

/-- A body reads each uniform that its kind asks for, and no other one. -/
theorem read_mem_bodyUses :
    .read w ∈ bodyUses kind f operands ↔
      ∃ role, role ∈ kind.uniforms ∧ (UniformName.mk f role).text.toList = w := by
  cases kind with
  | overrideInput c specialized =>
    cases specialized <;> simp [bodyUses, Kind.uniforms, eq_comm]
  | deviceSpace =>
    cases h : operands[0]?.join <;> simp [bodyUses, Kind.uniforms, Variable.uses, h]
  | linearGradient =>
    simp only [bodyUses, Kind.uniforms, List.mem_cons, Reference.read.injEq, List.not_mem_nil]
    grind
  | _ => simp [bodyUses, Kind.uniforms, Variable.uses, eq_comm]

/-- A body names what the renderer provides only where its kind uses it. -/
theorem global_mem_bodyUses :
    .global w ∈ bodyUses kind f operands ↔
      kind.usesFragCoord ∧ operands[0]?.join.isSome ∧ w = Variable.fragCoord.text.toList ∨
        kind.readsDestination ∧ w = Variable.destColor.text.toList := by
  cases kind with
  | overrideInput c specialized =>
    cases specialized <;> simp [bodyUses, Kind.usesFragCoord, Kind.readsDestination]
  | deviceSpace =>
    cases h : operands[0]?.join <;>
      simp [bodyUses, Variable.uses, Kind.usesFragCoord, Kind.readsDestination, h]
  | _ => simp [bodyUses, Variable.uses, Kind.usesFragCoord, Kind.readsDestination]

end Shader

end PixelEffect
