import PixelEffect.Effect
import PixelEffect.Proofs.Node.Growth

namespace PixelEffect

namespace Effect

/-- A public constructor without operands. -/
inductive Source
  | color (c : Color Single)
  | destColor
  | linearGradient (start finish : Point) (c d : Color Single)

/-- A public constructor with one operand. -/
inductive Modifier
  | overrideInput (c : Color Single) (useUniform : Bool)
  | swizzle (s : Swizzle)
  | premul
  | colorMatrix (m : ColorMatrix)
  | clamp (premul : Bool)
  | deviceSpace
  | matrix (m : Matrix3)
  | mulChildByInputAlpha
  | mulInputByChildAlpha
  | modulateAlpha (c : Color Single)
  | modulateRgba (c : Color Single)

/-- A public constructor with two operands. -/
inductive Combiner
  | compose
  | blend (mode : BlendMode) (behavior : BlendBehavior)

def Source.build : Source → Build Node
  | color c => Effect.color c
  | destColor => Effect.destColor
  | linearGradient start finish c d => Effect.linearGradient start finish c d

def Modifier.build (child : Option Node) : Modifier → Build (Option Node)
  | overrideInput c useUniform => Effect.overrideInput child c useUniform
  | swizzle s => Effect.swizzle child s
  | premul => Effect.premul child
  | colorMatrix m => some <$> Effect.colorMatrix child m
  | clamp toAlpha => Effect.clamp child toAlpha
  | deviceSpace => Effect.deviceSpace child
  | matrix m => Effect.matrix child m
  | mulChildByInputAlpha => Effect.mulChildByInputAlpha child
  | mulInputByChildAlpha => Effect.mulInputByChildAlpha child
  | modulateAlpha c => some <$> Effect.modulateAlpha child c
  | modulateRgba c => some <$> Effect.modulateRgba child c

/-- A way to apply one optional tree to the output of another one. -/
abbrev Composition := Option Node → Option Node → Build (Option Node)

/-- Combines two operands, with `composition` in the place of `compose`. -/
def Combiner.buildWith (composition : Composition) (f g : Option Node) :
    Combiner → Build (Option Node)
  | compose => composition f g
  | blend mode behavior => Effect.blend f g mode behavior

/-- A call of a public constructor on trees. -/
inductive Call
  | source (s : Source)
  | modify (m : Modifier) (child : Option Node)
  | combine (c : Combiner) (f g : Option Node)

namespace Call

/-- The operands of a call, in the order of its arguments. -/
def operands : Call → List (Option Node)
  | source _ => []
  | modify _ child => [child]
  | combine _ f g => [f, g]

/-- Runs a call, with `composition` in the place of `compose`. -/
def runWith (composition : Composition) : Call → Build (Option Node)
  | source s => some <$> s.build
  | modify m child => m.build child
  | combine c f g => c.buildWith composition f g

/-- Runs a call. -/
def run : Call → Build (Option Node) := runWith Effect.compose

end Call

end Effect

namespace Node

/-- A new node with a single child slot. -/
def unary (id : NodeId) (kind : Kind) (optimizations : Optimizations) (child : Option Node)
    (sampling : Sampling) : Node :=
  (leaf id kind optimizations).attached child sampling

/-- A new node with two child slots, both sampled where the node is. -/
def binary (id : NodeId) (kind : Kind) (optimizations : Optimizations)
    (first second : Option Node) : Node :=
  ((leaf id kind optimizations).attached first .passThrough).attached second .passThrough

section

variable (id : NodeId) (kind : Kind) (optimizations : Optimizations) (sampling : Sampling)
  (child first second : Option Node)

@[simp] theorem kind_unary : (unary id kind optimizations child sampling).kind = kind := by
  simp [unary]

@[simp] theorem optimizations_unary :
    (unary id kind optimizations child sampling).optimizations = optimizations := by
  simp [unary]

@[simp] theorem isFresh_unary : (unary id kind optimizations child sampling).isFresh := by
  simp [unary]

/-- Being attached leaves the content of a child as it is. -/
theorem slots_content_unary :
    (unary id kind optimizations child sampling).slots.map (Option.map content) =
      [child].map (Option.map content) := by
  rw [unary, slots_content_attached, slots_leaf]
  rfl

@[simp] theorem kind_binary : (binary id kind optimizations first second).kind = kind := by
  simp [binary]

@[simp] theorem optimizations_binary :
    (binary id kind optimizations first second).optimizations = optimizations := by
  simp [binary]

@[simp] theorem isFresh_binary : (binary id kind optimizations first second).isFresh := by
  simp [binary]

theorem slots_content_binary :
    (binary id kind optimizations first second).slots.map (Option.map content) =
      [first, second].map (Option.map content) := by
  rw [binary, slots_content_attached, slots_content_attached, slots_leaf]
  rfl

end

/-- An optional tree that may be attached. -/
def FreshIfAny (n : Option Node) : Prop := ∀ c, n = some c → c.isFresh

end Node

namespace Effect

open Node

variable {id last : NodeId}

/-- A node on top of another one can be had exactly if that one is fresh. -/
theorem run_wrap_eq_ok {kind : Kind} {optimizations : Optimizations} {child n : Node}
    {sampling : Sampling} :
    (wrap kind optimizations child sampling).run id = .ok (n, last) ↔
      child.isFresh ∧ n = unary id kind optimizations (some child) sampling ∧ last = id.next := by
  rw [wrap, Build.run_bind_of_ok (run_create _ _ _), run_attach_eq_ok, withChild_eq_ok_iff]
  simp only [Option.some.injEq, forall_eq', isFresh_leaf, and_true, and_assoc, unary, eq_comm]

theorem run_colorMatrix_eq_ok {child : Option Node} {m : ColorMatrix} {n : Node} :
    (colorMatrix child m).run id = .ok (n, last) ↔
      FreshIfAny child ∧ n = unary id (.colorMatrix m)
        ⟨false, (optimizationsOf child).constantOutput⟩ child .passThrough ∧ last = id.next := by
  rw [colorMatrix, Build.run_bind_of_ok (run_create _ _ _), run_attach_eq_ok,
    withChild_eq_ok_iff]
  simp only [isFresh_leaf, and_true, and_assoc, unary, FreshIfAny, eq_comm]

/-- Two children are attached to a new node exactly if both are fresh. -/
theorem run_attach_two_eq_ok {kind : Kind} {optimizations : Optimizations}
    {first second : Option Node} {n : Node} {start : NodeId} :
    (do (← (leaf id kind optimizations).attach first .passThrough).attach second .passThrough :
      Build Node).run start = .ok (n, last) ↔
      FreshIfAny first ∧ FreshIfAny second ∧ n = binary id kind optimizations first second ∧
        last = start := by
  rw [Build.run_bind_eq_ok]
  simp only [run_attach_eq_ok, withChild_eq_ok_iff]
  constructor
  · rintro ⟨_, _, ⟨⟨hfirst, rfl⟩, rfl⟩, ⟨hsecond, rfl⟩, rfl⟩
    exact ⟨fun c hc => (hfirst c hc).1, fun c hc => (hsecond c hc).1, rfl, rfl⟩
  · rintro ⟨hfirst, hsecond, rfl, rfl⟩
    exact ⟨_, _, ⟨⟨fun c hc => ⟨hfirst c hc, rfl⟩, rfl⟩, rfl⟩,
      ⟨fun c hc => ⟨hsecond c hc, by simp⟩, rfl⟩, rfl⟩

/-- A composition carries the flags that both of its operands carry. -/
theorem run_composeNode_eq_ok {f g n : Node} :
    (composeNode f g).run id = .ok (n, last) ↔
      f.isFresh ∧ g.isFresh ∧
        n = binary id .compose (f.optimizations.inter g.optimizations) (some f) (some g) ∧
        last = id.next := by
  rw [composeNode, Build.run_bind_of_ok (run_create _ _ _), run_attach_two_eq_ok]
  simp [FreshIfAny]

/-- The optimizations of a blend, given those of its operands. -/
def blendOptimizations (mode : BlendMode) (source destination : Optimizations) : Optimizations :=
  ⟨mode.keepsOpaque source.preservesOpaque destination.preservesOpaque,
    source.constantOutput && destination.constantOutput⟩

/-- The flags of a blend come from the table of its mode. -/
theorem run_blendNode_eq_ok {source destination : Option Node} {mode : BlendMode}
    {behavior : BlendBehavior} {n : Node} :
    (blendNode source destination mode behavior).run id = .ok (n, last) ↔
      FreshIfAny source ∧ FreshIfAny destination ∧
        n = binary id (.blend mode behavior)
          (blendOptimizations mode (optimizationsOf source) (optimizationsOf destination))
          source destination ∧
        last = id.next := by
  rw [blendNode, Build.run_bind_of_ok (run_create _ _ _), run_attach_two_eq_ok]
  rfl

/-- A constructor that needs its child yields nothing without one. -/
theorem run_mapM_eq_ok {child : Option Node} {f : Node → Build Node} {out : Option Node} :
    (child.mapM f).run id = .ok (out, last) ↔
      (child = none ∧ out = none ∧ last = id) ∨
        ∃ c n, child = some c ∧ out = some n ∧ (f c).run id = .ok (n, last) := by
  cases child with
  | none =>
    rw [Option.mapM_none, Build.run_pure_eq_ok]
    simp [eq_comm]
  | some c =>
    rw [Option.mapM_some, Build.run_map_eq_ok]
    constructor
    · rintro ⟨n, hn, rfl⟩
      exact .inr ⟨c, n, rfl, rfl, hn⟩
    · rintro (⟨h, _⟩ | ⟨_, n, ⟨⟩, rfl, hn⟩)
      · cases h
      · exact ⟨n, hn, rfl⟩

/-- What composition builds of two trees, once their analysis says which of them a constant stands
for. -/
def composed (f g : Node) : Option (Nat × Color Single) → Build Node
  | none => composeNode f g
  | some (1, known) => do composeNode f (← color known)
  | some (_, known) => color known

/-- Composition depends on how the operands are analyzed as a series, the inner one first. -/
theorem run_compose_of_ok {f g : Node} {analysis : SeriesAnalysis}
    (h : SeriesAnalysis.ofSeries .unknown [g, f] = .ok analysis) :
    (compose (some f) (some g)).run id = (some <$> composed f g analysis.eliminated).run id := by
  simp only [compose, h]
  obtain ⟨_, _, _, eliminated, _, _⟩ := analysis
  obtain _ | ⟨_ | _ | count, known⟩ := eliminated
  · rfl
  · rfl
  · simp only [composed, map_bind]
    rfl
  · rfl

/-- Composition breaks off where its analysis does. -/
theorem run_compose_of_error {f g : Node} {e : Failure}
    (h : SeriesAnalysis.ofSeries .unknown [g, f] = .error e) :
    (compose (some f) (some g)).run id = .error e := by
  simp only [compose, h]
  rfl

/-- Composition of two trees yields a tree, if anything. -/
theorem run_compose_eq_ok {f g : Node} {out : Option Node} :
    (compose (some f) (some g)).run id = .ok (out, last) ↔
      ∃ analysis n, SeriesAnalysis.ofSeries .unknown [g, f] = .ok analysis ∧
        (composed f g analysis.eliminated).run id = .ok (n, last) ∧ out = some n := by
  cases hanalysis : SeriesAnalysis.ofSeries .unknown [g, f] with
  | error e =>
    rw [run_compose_of_error hanalysis]
    constructor
    · intro h
      cases h
    · rintro ⟨_, _, h, _⟩
      cases h
  | ok analysis =>
    rw [run_compose_of_ok hanalysis, Build.run_map_eq_ok]
    simp only [Except.ok.injEq, exists_and_left, exists_eq_left', eq_comm]

end Effect

end PixelEffect
