import PixelEffect.Description.Basic
import PixelEffect.Effect

namespace PixelEffect.Description

/-- The points of a gradient have to be finite. -/
def validatePoints (start finish : Point) : Except Error Unit :=
  if (start.toList ++ finish.toList).all Ieee.isFinite then .ok ()
  else .error (.validation .gradientNotFinite)

mutual

/-- Builds the tree of a description. There is none where an effect lacks the operand that it
cannot do without. -/
def build : Description → Build (Option Node)
  | color c => do some <$> Effect.color (← Build.ofExcept c.validate)
  | destColor => some <$> Effect.destColor
  | overrideInput child c useUniform => do
    let child ← buildOperand child
    Effect.overrideInput child (← Build.ofExcept c.validate) useUniform
  | swizzle child s => do
    let child ← buildOperand child
    Effect.swizzle child (← Build.ofExcept (Swizzle.ofText s))
  | premul child => do Effect.premul (← buildOperand child)
  | compose f g => do
    let f ← buildOperand f
    Effect.compose f (← buildOperand g)
  | blend source destination mode behavior => do
    let source ← buildOperand source
    Effect.blend source (← buildOperand destination) mode behavior
  | mulChildByInputAlpha child => do Effect.mulChildByInputAlpha (← buildOperand child)
  | mulInputByChildAlpha child => do Effect.mulInputByChildAlpha (← buildOperand child)
  | modulateAlpha child c => do
    let child ← buildOperand child
    some <$> Effect.modulateAlpha child (← Build.ofExcept c.validate)
  | modulateRgba child c => do
    let child ← buildOperand child
    some <$> Effect.modulateRgba child (← Build.ofExcept c.validate)
  | colorMatrix child coefficients unpremulInput clampRgbOutput premulOutput => do
    let m ← Build.ofExcept
      (ColorMatrix.ofList coefficients unpremulInput clampRgbOutput premulOutput)
    some <$> Effect.colorMatrix (← buildOperand child) m
  | clamp child toAlpha => do Effect.clamp (← buildOperand child) toAlpha
  | deviceSpace child => do Effect.deviceSpace (← buildOperand child)
  | matrix child m => do
    let child ← buildOperand child
    Effect.matrix child (← Build.ofExcept m.validate)
  | linearGradient start finish c d => do
    Build.ofExcept (validatePoints start finish)
    let c ← Build.ofExcept c.validate
    some <$> Effect.linearGradient start finish c (← Build.ofExcept d.validate)

def buildOperand : Option Description → Build (Option Node)
  | none => pure none
  | some child => build child

end

/-- The tree of a description by itself. -/
def tree (d : Description) : Except Failure (Option Node) := do
  let (n, _) ← d.build ⟨0⟩
  return n

end PixelEffect.Description
