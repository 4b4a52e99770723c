import PixelEffect.Error
import PixelEffect.Node.Basic

namespace PixelEffect

/-- What an effect makes of an input color. -/
abbrev Shade (α : Type) := Color α → Except Failure (Color α)

namespace Scalar

/-- The nearest number between two bounds, which have to be in order. -/
def clamp {α : Type} [Scalar α] (low high x : α) : Except Failure α :=
  if le low high then .ok (between low high x) else .error (.violation .clampBounds)

end Scalar

/-- Brings alpha into `[0, 1]` and every other channel into `[0, alpha]`. -/
def Color.clampPremul {α : Type} [Scalar α] (c : Color α) : Except Failure (Color α) := do
  let a ← Scalar.clamp 0 1 c.a
  return ⟨← Scalar.clamp 0 a c.r, ← Scalar.clamp 0 a c.g, ← Scalar.clamp 0 a c.b, a⟩

/-- What the operand in slot `i` makes of a color. An absent operand leaves it as it is. -/
def operandOutput {α : Type} (operands : List (Option (Shade α))) (i : Nat) : Shade α :=
  match operands[i]?.join with
  | some shade => shade
  | none => .ok

/-- What the operand in slot `i` makes of a color, if there is such an operand. -/
def presentOutput? {α : Type} (operands : List (Option (Shade α))) (i : Nat) (input : Color α) :
    Except Failure (Option (Color α)) :=
  match operands[i]?.join with
  | some shade => some <$> shade input
  | none => .ok none

namespace Kind

variable {α : Type} [Scalar α]

/-- What an effect makes of an input color, given what its operands do. The colors of the
destination and of gradients come from elsewhere. -/
def output (elsewhere : Kind → Shade α) (kind : Kind) (operands : List (Option (Shade α))) :
    Shade α := fun input =>
  match kind with
  | color c => .ok (.ofSingle c)
  | overrideInput c _ => operandOutput operands 0 (.ofSingle c)
  | swizzle s => s.apply <$> operandOutput operands 0 input
  | premul => do
    let child ← operandOutput operands 0 .white
    return (StraightColor.premul ⟨input.r, input.g, input.b, input.a⟩).mul child
  | compose => do operandOutput operands 0 (← operandOutput operands 1 input)
  | blend mode behavior => do
    let source ← presentOutput? operands 0 (behavior.probe input)
    let destination ← presentOutput? operands 1 (behavior.probe input)
    return blendOutputs mode behavior source destination input
  | colorMatrix m => m.apply <$> operandOutput operands 0 input
  | clamp false => Color.saturate <$> operandOutput operands 0 input
  | clamp true => do (← operandOutput operands 0 input).clampPremul
  | deviceSpace | matrix _ => operandOutput operands 0 input
  | destColor | linearGradient .. => elsewhere kind input

/-- Colors that come from elsewhere are not known ahead. -/
def unknownElsewhere (kind : Kind) : Shade α := fun _ =>
  .error (.error (.evaluation (.notComputable kind.name)))

end Kind

namespace Node

variable {α : Type} [Scalar α]

mutual

/-- The output for a constant input. Only a node that is marked for it has one. -/
def shade : Node → Shade α
  | mk data slots => fun input =>
    if data.optimizations.constantOutput then
      data.kind.output Kind.unknownElsewhere (shades slots) input
    else .error (.error (.evaluation (.notConstant data.kind.name)))

def shades : List (Option Node) → List (Option (Shade α))
  | [] => []
  | none :: rest => none :: shades rest
  | some child :: rest => some (shade child) :: shades rest

end

/-- The output of an optional node; an absent one leaves the input as it is. -/
def shadeOf (n : Option Node) : Shade α :=
  match n with
  | none => .ok
  | some n => n.shade

end Node

namespace Kind

/-- Whether the output of an effect does not depend on the input color, given which of its
operands do not. -/
def ignoresInput (kind : Kind) (operands : List (Option Bool)) : Bool :=
  let operand (i : Nat) : Bool := operands[i]?.join.getD false
  match kind with
  | color _ | overrideInput .. | destColor | linearGradient .. => true
  | swizzle _ | colorMatrix _ | clamp _ | deviceSpace | matrix _ => operand 0
  | compose => operand 0 || operand 1
  | blend _ .skMode => operand 0 && operand 1
  | premul | blend .. => false

end Kind

namespace Node

mutual

/-- Whether the output does not depend on the input color. -/
def ignoresInput : Node → Bool
  | mk data slots => data.kind.ignoresInput (ignoringSlots slots)

def ignoringSlots : List (Option Node) → List (Option Bool)
  | [] => []
  | none :: rest => none :: ignoringSlots rest
  | some child :: rest => some (ignoresInput child) :: ignoringSlots rest

end

end Node

end PixelEffect
