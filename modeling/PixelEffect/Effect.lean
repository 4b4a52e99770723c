import PixelEffect.Node.Attach
import PixelEffect.Series

namespace PixelEffect.Effect

/-- Always yields a color, whatever the input. -/
def color (c : Color Single) : Build Node :=
  Node.create (.color c) ⟨c.isOpaque, true⟩

/-- Yields the destination color. -/
def destColor : Build Node := Node.create .destColor .empty

/-- Passes from one color to another along a segment and keeps the end colors beyond it. -/
def linearGradient (start finish : Point) (c d : Color Single) : Build Node :=
  Node.create (.linearGradient start finish c d) ⟨c.isOpaque && d.isOpaque, false⟩

/-- Puts an effect on top of a child. An effect that needs a child is absent if the child is. -/
def wrap (kind : Kind) (optimizations : Optimizations) (child : Node) (sampling : Sampling) :
    Build Node := do
  (← Node.create kind optimizations).attach (some child) sampling

/-- Evaluates the child with a color instead of the input. With a uniform the color can be changed
later, otherwise it is part of the program. -/
def overrideInput (child : Option Node) (c : Color Single) (useUniform : Bool) :
    Build (Option Node) :=
  child.mapM fun child =>
    wrap (.overrideInput c (!useUniform)) ⟨c.isOpaque, child.optimizations.constantOutput⟩ child
      .passThrough

/-- Permutes the channels of the child. The identity leaves the child as it is. -/
def swizzle (child : Option Node) (s : Swizzle) : Build (Option Node) :=
  child.mapM fun child =>
    if s = .identity then pure child
    else
      let o := child.optimizations
      wrap (.swizzle s) ⟨o.preservesOpaque && s.keepsOpaque, o.constantOutput⟩ child
        .passThrough

/-- Samples the child with opaque white and multiplies by the premultiplied input. -/
def premul (child : Option Node) : Build (Option Node) :=
  child.mapM fun child => wrap .premul child.optimizations child .passThrough

/-- Transforms the output of the child, or the input if there is none. -/
def colorMatrix (child : Option Node) (m : ColorMatrix) : Build Node := do
  let o : Optimizations := ⟨false, (Node.optimizationsOf child).constantOutput⟩
  (← Node.create (.colorMatrix m) o).attach child .passThrough

/-- Clamps the output of the child. -/
def clamp (child : Option Node) (premul : Bool) : Build (Option Node) :=
  child.mapM fun child => wrap (.clamp premul) child.optimizations child .passThrough

/-- Samples the child at the position of the fragment. Where a child is sampled does not change
what it makes of its input. -/
def deviceSpace (child : Option Node) : Build (Option Node) :=
  child.mapM fun child => wrap .deviceSpace child.optimizations child .explicit

/-- Samples the child at the local coordinate mapped through a matrix. -/
def matrix (child : Option Node) (m : Matrix3) : Build (Option Node) :=
  child.mapM fun child =>
    wrap (.matrix m) child.optimizations child (.uniformMatrix m.hasPerspective)

/-- A node that applies `f` to the output of `g`. -/
def composeNode (f g : Node) : Build Node := do
  let n ← Node.create .compose (f.optimizations.inter g.optimizations)
  (← n.attach (some f) .passThrough).attach (some g) .passThrough

/-- Applies `f` to the output of `g`. An absent one leaves its input as it is. What is constant at
the start is folded into a color. -/
def compose (f g : Option Node) : Build (Option Node) :=
  match f, g with
  | none, g => pure g
  | f, none => pure f
  | some f, some g => do
    let analysis ← (SeriesAnalysis.ofSeries .unknown [g, f] : Except Failure SeriesAnalysis)
    match analysis.eliminated with
    | none => some <$> composeNode f g
    | some (1, known) => do some <$> composeNode f (← color known)
    | some (_, known) => some <$> color known

/-- A node that blends two operands. -/
def blendNode (source destination : Option Node) (mode : BlendMode) (behavior : BlendBehavior) :
    Build Node := do
  let s := Node.optimizationsOf source
  let d := Node.optimizationsOf destination
  let o : Optimizations :=
    ⟨mode.keepsOpaque s.preservesOpaque d.preservesOpaque, s.constantOutput && d.constantOutput⟩
  let n ← Node.create (.blend mode behavior) o
  (← n.attach source .passThrough).attach destination .passThrough

/-- Blends the source with the destination. Clearing is a transparent color, and a blend that
yields one operand is that operand. -/
def blend (source destination : Option Node) (mode : BlendMode) (behavior : BlendBehavior) :
    Build (Option Node) :=
  match mode with
  | .clear => some <$> color .transparent
  | .src => pure source
  | .dst => pure destination
  | mode =>
    some <$> blendNode source destination mode
      (behavior.resolve source.isSome destination.isSome)

/-- Multiplies the child, sampled with opaque white, by the alpha of the input. -/
def mulChildByInputAlpha (child : Option Node) : Build (Option Node) :=
  match child with
  | none => pure none
  | child => blend none child .dstIn .default

/-- Multiplies the input by the alpha of the child. -/
def mulInputByChildAlpha (child : Option Node) : Build (Option Node) :=
  match child with
  | none => pure none
  | child => blend none child .srcIn .default

/-- Multiplies a color by the alpha of the child, or of the input if there is none. -/
def modulateAlpha (child : Option Node) (c : Color Single) : Build Node := do
  blendNode (some (← color c)) child .srcIn .skMode

/-- Multiplies a color by the child, or by the input if there is none. -/
def modulateRgba (child : Option Node) (c : Color Single) : Build Node := do
  blendNode (some (← color c)) child .modulate .skMode

end PixelEffect.Effect
