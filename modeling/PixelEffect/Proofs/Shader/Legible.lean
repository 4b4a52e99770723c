import PixelEffect.Proofs.Shader.Reading

namespace PixelEffect

namespace Shader

namespace Expression

variable {e e' : Expression}

@[simp] theorem legible_literal {x : Single} : (literal x).Legible ↔ x.isFinite := Iff.rfl

@[simp] theorem legible_var {x : Variable} : (var x).Legible := trivial

@[simp] theorem legible_uniform {u : UniformName} : (uniform u).Legible := trivial

@[simp] theorem legible_group : (group e).Legible ↔ e.Legible := Iff.rfl

@[simp] theorem legible_builtin {f : Builtin} {es : List Expression} :
    (builtin f es).Legible ↔ es ≠ [] ∧ AllLegible es := Iff.rfl

@[simp] theorem allLegible_nil : AllLegible [] := trivial

@[simp] theorem allLegible_cons {es : List Expression} :
    AllLegible (e :: es) ↔ e.Legible ∧ AllLegible es := Iff.rfl

@[simp] theorem legible_binary {op : Operator} :
    (binary op e e').Legible ↔ e.Legible ∧ e'.Legible := Iff.rfl

@[simp] theorem legible_add : (e + e').Legible ↔ e.Legible ∧ e'.Legible := Iff.rfl

@[simp] theorem legible_sub : (e - e').Legible ↔ e.Legible ∧ e'.Legible := Iff.rfl

@[simp] theorem legible_mul : (e * e').Legible ↔ e.Legible ∧ e'.Legible := Iff.rfl

@[simp] theorem legible_div : (e / e').Legible ↔ e.Legible ∧ e'.Legible := Iff.rfl

@[simp] theorem legible_components {x : Variable} {cs : List Component} :
    (components (var x) cs).Legible ↔ cs ≠ [] :=
  ⟨fun h => h.2, fun h => ⟨⟨x, rfl⟩, h⟩⟩

@[simp] theorem legible_input : input.Legible := trivial

@[simp] theorem legible_coords : coords.Legible := trivial

@[simp] theorem legible_named {x : Local} : (named x).Legible := trivial

@[simp] theorem legible_components_named {x : Local} {cs : List Component} :
    (components (named x) cs).Legible ↔ cs ≠ [] := legible_components

@[simp] theorem legible_components_input {cs : List Component} :
    (components input cs).Legible ↔ cs ≠ [] := legible_components

@[simp] theorem legible_one : one.Legible := isFinite_of_mem_constants one_mem_constants

@[simp] theorem legible_zero : zero.Legible := isFinite_of_mem_constants zero_mem_constants

@[simp] theorem legible_opaqueWhite : opaqueWhite.Legible := by
  simp [opaqueWhite]

@[simp] theorem legible_transparent : transparent.Legible := by
  simp [transparent]

@[simp] theorem legible_saturate : e.saturate.Legible ↔ e.Legible := by
  simp [saturate]

@[simp] theorem legible_ofColor {c : Color Single} : (ofColor c).Legible ↔ c.isFinite := by
  simp [ofColor, Color.isFinite, Color.toList]

/-- A call of an operand at some place is legible, and so is an absent one. -/
theorem Legible.callAt (he : e.Legible) (he' : e'.Legible) (f : Option FunctionName) :
    (callAt e f e').Legible := by
  cases f with
  | none => exact he'
  | some f => exact ⟨he', he⟩

theorem Legible.callOrInput (he : e.Legible) (f : Option FunctionName) :
    (callOrInput f e).Legible :=
  Legible.callAt legible_coords he f

/-- Swizzles are legible, since zero and one are finite. -/
theorem legible_swizzled (x : Local) (s : Swizzle) : (swizzled (named x) s).Legible := by
  have hchannel : ∀ c : Channel, (channel (named x) c).Legible := by
    intro c
    cases c <;> simp [channel]
  unfold swizzled
  split
  · rename_i cs hcs
    rw [legible_components_named]
    rintro rfl
    rw [Swizzle.toList, List.mapM_cons] at hcs
    obtain ⟨_, _, hcs⟩ := Option.bind_eq_some_iff.mp hcs
    obtain ⟨_, _, hcs⟩ := Option.bind_eq_some_iff.mp hcs
    cases hcs
  · simp [Swizzle.toList, hchannel]

/-- Blending uses finite constants only. -/
theorem legible_blended (mode : BlendMode) (x y : Local) :
    (blended mode (named x) (named y)).Legible := by
  cases mode <;> simp [blended, alpha]

/-- The operands of blends are calls and colors. -/
theorem legible_blendOperand (behavior : BlendBehavior) (f : Option FunctionName) :
    (blendOperand behavior f).Legible := by
  cases f with
  | none => exact legible_input
  | some f =>
    have hprobe : (probe behavior).Legible := by cases behavior <;> simp [probe]
    exact hprobe.callOrInput (some f)

end Expression

open Expression

/-- The steps around a color matrix use finite constants only. -/
theorem legible_colorMatrixSteps (m : ColorMatrix) (u v : UniformName) :
    ∀ s, s ∈ colorMatrixSteps m (uniform u) (uniform v) → s.Legible := by
  obtain ⟨_, _, _, _, unpremul, clamp, premul⟩ := m
  cases unpremul <;> cases clamp <;> cases premul <;>
    simp [colorMatrixSteps, Statement.Legible, alpha, rgb]

/-- The body of a function is legible unless a color that is part of it is not finite. -/
theorem legible_body {kind : Kind} (hkind : ∀ x, x ∈ kind.literals → x.isFinite)
    (f : FunctionName) (operands : List (Option FunctionName)) :
    ∀ s, s ∈ body kind f operands → s.Legible := by
  have hcall : ∀ {e : Expression} {i : Nat}, e.Legible →
      (callOrInput operands[i]?.join e).Legible := fun he => he.callOrInput _
  cases kind with
  | color | destColor => simp [body, Statement.Legible]
  | overrideInput c specialized =>
    cases specialized with
    | false => simp [body, Statement.Legible, hcall]
    | true =>
      have hc : c.isFinite := List.all_eq_true.mpr hkind
      simp [body, Statement.Legible, hcall, hc]
  | swizzle s => simp [body, Statement.Legible, hcall, legible_swizzled]
  | premul => simp [body, Statement.Legible, hcall, alpha, rgb]
  | compose => simp [body, Statement.Legible, hcall]
  | blend mode behavior =>
    cases behavior <;>
      simp [body, Statement.Legible, legible_blended, legible_blendOperand, alpha]
  | colorMatrix m =>
    intro s hs
    rcases List.mem_append.mp hs with hs | hs
    · rcases List.mem_cons.mp hs with rfl | hs
      · exact hcall legible_input
      · exact legible_colorMatrixSteps m _ _ s hs
    · rw [List.mem_singleton.mp hs]
      exact @legible_named .c
  | clamp toAlpha => cases toAlpha <;> simp [body, Statement.Legible, hcall, alpha, rgb]
  | deviceSpace =>
    have hposition : (components (var .fragCoord) [.x, .y]).Legible := by simp
    have hat := hposition.callAt legible_input operands[0]?.join
    simp [body, Statement.Legible, hat]
  | matrix m =>
    have hpoint : (components (named .p) [.x, .y]).Legible := by simp
    have hdivided :
        (components (named .p) [.x, .y] / components (named .p) [.z]).Legible := by simp
    have hat := hpoint.callAt legible_input operands[0]?.join
    have hat' := hdivided.callAt legible_input operands[0]?.join
    cases h : m.hasPerspective <;> simp [body, Statement.Legible, h, hat, hat']
  | linearGradient =>
    have hleast := isFinite_of_mem_constants leastSquaredLength_mem_constants
    simp [body, Statement.Legible, hleast]

end Shader

end PixelEffect
