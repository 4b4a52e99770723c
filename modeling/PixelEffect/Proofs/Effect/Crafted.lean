import PixelEffect.Proofs.Effect.Call

namespace PixelEffect

/-- The optimizations that the constructors give a node of a kind, from those of its operands. An
absent operand has them all. -/
def Kind.deduced (kind : Kind) (operands : List (Option Optimizations)) : Optimizations :=
  let operand (i : Nat) : Optimizations := operands[i]?.join.getD .all
  match kind with
  | color c => ⟨c.isOpaque, true⟩
  | overrideInput c _ => ⟨c.isOpaque, (operand 0).constantOutput⟩
  | destColor => .empty
  | swizzle s => ⟨(operand 0).preservesOpaque && s.keepsOpaque, (operand 0).constantOutput⟩
  | premul | clamp _ | deviceSpace | matrix _ => operand 0
  | compose => (operand 0).inter (operand 1)
  | blend mode _ => Effect.blendOptimizations mode (operand 0) (operand 1)
  | colorMatrix _ => ⟨false, (operand 0).constantOutput⟩
  | linearGradient _ _ c d => ⟨c.isOpaque && d.isOpaque, false⟩

/-- The number of operands that the constructors give a node of a kind. -/
def Kind.arity : Kind → Nat
  | color _ | destColor | linearGradient .. => 0
  | overrideInput .. | swizzle _ | premul | colorMatrix _ | clamp _ | deviceSpace | matrix _ => 1
  | compose | blend .. => 2

/-- How the constructors let a node of a kind sample its operands. -/
def Kind.sampling : Kind → Sampling
  | deviceSpace => .explicit
  | matrix m => .uniformMatrix m.hasPerspective
  | _ => .passThrough

namespace Effect

open Node

/-- What can be crafted from given trees: nothing, one of them, or a new node whose children were
crafted from them, in the number and with the sampling that its kind asks for, and whose
optimizations follow from its kind and its children. Which tree a composition may put over which one
is up to `joined`. -/
inductive Crafted (joined : Node → Node → Prop) (given : Option Node → Prop) : Option Node → Prop
  | absent : Crafted joined given none
  | operand {n : Option Node} (hgiven : given n) : Crafted joined given n
  | leaf (id : NodeId) (kind : Kind) (harity : kind.arity = 0) :
      Crafted joined given (some (leaf id kind (kind.deduced [])))
  | unary (id : NodeId) (kind : Kind) (harity : kind.arity = 1) {child : Option Node}
      (hchild : Crafted joined given child) (hfresh : FreshIfAny child) :
      Crafted joined given
        (some (unary id kind (kind.deduced [child.map Node.optimizations]) child kind.sampling))
  | binary (id : NodeId) (kind : Kind) (harity : kind.arity = 2) {first second : Option Node}
      (hfirst : Crafted joined given first) (hsecond : Crafted joined given second)
      (hfreshFirst : FreshIfAny first) (hfreshSecond : FreshIfAny second)
      (hjoined : kind = .compose → ∃ f g, first = some f ∧ second = some g ∧ joined f g) :
      Crafted joined given
        (some (binary id kind
          (kind.deduced [first.map Node.optimizations, second.map Node.optimizations])
          first second))

/-- What is given may itself have been put together from other trees. -/
theorem Crafted.mono {joined : Node → Node → Prop} {given given' : Option Node → Prop}
    (h : ∀ n, given n → Crafted joined given' n) {n : Option Node} (hn : Crafted joined given n) :
    Crafted joined given' n := by
  induction hn with
  | absent => exact .absent
  | operand hgiven => exact h _ hgiven
  | leaf id kind harity => exact .leaf id kind harity
  | unary id kind harity _ hfresh ih => exact .unary id kind harity ih hfresh
  | binary id kind harity _ _ hfreshFirst hfreshSecond hjoined ihFirst ihSecond =>
    exact .binary id kind harity ihFirst ihSecond hfreshFirst hfreshSecond hjoined

/-- What growth preserves is handed on from the given trees to everything crafted from them. -/
theorem Crafted.grows {P : Node → Prop} (hP : Grows P) {joined : Node → Node → Prop}
    {given : Option Node → Prop} (hgiven : ∀ c, given (some c) → P c) {n : Option Node}
    (h : Crafted joined given n) : ∀ c, n = some c → P c := by
  induction h with
  | absent => exact fun _ h => (by cases h)
  | operand h =>
    rintro c rfl
    exact hgiven c h
  | leaf id kind harity =>
    rintro _ ⟨⟩
    exact hP.leaf _ _ _
  | unary id kind harity _ hfresh ih =>
    rintro _ ⟨⟩
    exact hP.attached (hP.leaf _ _ _) ih
      (withChild_eq_ok_iff.mpr ⟨fun c hc => ⟨hfresh c hc, isFresh_leaf _ _ _⟩, rfl⟩)
  | binary id kind harity _ _ hfreshFirst hfreshSecond _ ihFirst ihSecond =>
    rintro _ ⟨⟩
    refine hP.attached (hP.attached (hP.leaf _ _ _) ihFirst
      (withChild_eq_ok_iff.mpr ⟨fun c hc => ⟨hfreshFirst c hc, isFresh_leaf _ _ _⟩, rfl⟩)) ihSecond
      (withChild_eq_ok_iff.mpr ⟨fun c hc => ⟨hfreshSecond c hc, ?_⟩, rfl⟩)
    rw [isFresh_attached]
    exact isFresh_leaf _ _ _

/-- Composing the first tree with the second one puts it over the third one, which is the second one
or the color that it folds to. -/
def Joins (f g inner : Node) : Prop :=
  ∃ analysis, SeriesAnalysis.ofSeries .unknown [g, f] = .ok analysis ∧
    (analysis.eliminated = none ∧ inner = g ∨
      ∃ known id, analysis.eliminated = some (1, known) ∧
        inner = Node.leaf id (.color known) ⟨known.isOpaque, true⟩)

variable {id last : NodeId} {joined : Node → Node → Prop} {given : Option Node → Prop}

/-- The common case of a constructor that needs its child and puts a node on top of it. -/
theorem Crafted.of_wrap {child out : Option Node} (hchild : Crafted joined given child) {kind : Kind}
    {o : Node → Optimizations} (ho : ∀ c, o c = kind.deduced [some c.optimizations])
    (harity : kind.arity = 1)
    (h : (child.mapM fun c => wrap kind (o c) c kind.sampling).run id = .ok (out, last)) :
    Crafted joined given out := by
  rw [run_mapM_eq_ok] at h
  obtain ⟨_, rfl, _⟩ | ⟨c, n, rfl, rfl, h⟩ := h
  · exact .absent
  · obtain ⟨hc, rfl, _⟩ := run_wrap_eq_ok.mp h
    rw [ho]
    exact Crafted.unary id kind harity hchild (by rintro _ ⟨⟩; exact hc)

theorem Crafted.of_blendNode {source destination : Option Node}
    (hsource : Crafted joined given source) (hdestination : Crafted joined given destination) {mode : BlendMode} {behavior : BlendBehavior}
    {n : Node} (h : (blendNode source destination mode behavior).run id = .ok (n, last)) :
    Crafted joined given (some n) := by
  obtain ⟨hfreshSource, hfreshDestination, rfl, _⟩ := run_blendNode_eq_ok.mp h
  have hdeduced : blendOptimizations mode (optimizationsOf source) (optimizationsOf destination) =
      (Kind.blend mode behavior).deduced
        [source.map Node.optimizations, destination.map Node.optimizations] := by
    cases source <;> cases destination <;> rfl
  rw [hdeduced]
  exact .binary id _ rfl hsource hdestination hfreshSource hfreshDestination fun h => (by cases h)

/-- A blend that is cut short yields one of its operands or a color. -/
theorem Crafted.of_blend {source destination out : Option Node}
    (hsource : Crafted joined given source) (hdestination : Crafted joined given destination) {mode : BlendMode} {behavior : BlendBehavior}
    (h : (blend source destination mode behavior).run id = .ok (out, last)) :
    Crafted joined given out := by
  by_cases hclear : mode = .clear
  · subst hclear
    obtain ⟨_, ⟨⟩, rfl⟩ := Build.run_map_eq_ok.mp h
    exact .leaf id (.color .transparent) rfl
  by_cases hsrc : mode = .src
  · subst hsrc
    obtain ⟨rfl, _⟩ := Build.run_pure_eq_ok.mp h
    exact hsource
  by_cases hdst : mode = .dst
  · subst hdst
    obtain ⟨rfl, _⟩ := Build.run_pure_eq_ok.mp h
    exact hdestination
  have hblend : blend source destination mode behavior = some <$> blendNode source destination
      mode (behavior.resolve source.isSome destination.isSome) := by
    cases mode <;> first | rfl | contradiction
  rw [hblend, Build.run_map_eq_ok] at h
  obtain ⟨n, hn, rfl⟩ := h
  exact .of_blendNode hsource hdestination hn

/-- The one node whose operands have to be joined in a certain way is a composition. -/
theorem Crafted.of_composeNode {f g n : Node} (hf : Crafted joined given (some f))
    (hg : Crafted joined given (some g)) (hjoined : joined f g)
    (h : (composeNode f g).run id = .ok (n, last)) : Crafted joined given (some n) := by
  obtain ⟨hfreshF, hfreshG, rfl, _⟩ := run_composeNode_eq_ok.mp h
  exact Crafted.binary id .compose rfl hf hg
    (by rintro _ ⟨⟩; exact hfreshF) (by rintro _ ⟨⟩; exact hfreshG)
    fun _ => ⟨f, g, rfl, rfl, hjoined⟩

/-- Composition yields an operand, a new composition of the two, or something made with a constant
color. -/
theorem Crafted.of_compose {f g out : Option Node} (hf : Crafted joined given f)
    (hg : Crafted joined given g)
    (hjoined : ∀ n m inner, f = some n → g = some m → Joins n m inner → joined n inner)
    (h : (compose f g).run id = .ok (out, last)) : Crafted joined given out := by
  cases f with
  | none =>
    obtain ⟨rfl, _⟩ := Build.run_pure_eq_ok.mp h
    exact hg
  | some f =>
    cases g with
    | none =>
      obtain ⟨rfl, _⟩ := Build.run_pure_eq_ok.mp h
      exact hf
    | some g =>
      obtain ⟨analysis, n, hanalysis, hn, rfl⟩ := run_compose_eq_ok.mp h
      have hcolor : ∀ id c,
          Crafted joined given (some (Node.leaf id (.color c) ⟨c.isOpaque, true⟩)) :=
        fun id c => .leaf id (.color c) rfl
      have hjoins := fun inner h => hjoined f g inner rfl rfl ⟨analysis, hanalysis, h⟩
      generalize analysis.eliminated = eliminated at hn hjoins
      obtain _ | ⟨_ | _ | count, known⟩ := eliminated
      · exact .of_composeNode hf hg (hjoins g (.inl ⟨rfl, rfl⟩)) hn
      · cases hn
        exact hcolor _ known
      · rw [composed, color, Build.run_bind_of_ok (run_create _ _ _)] at hn
        exact .of_composeNode hf (hcolor _ known) (hjoins _ (.inr ⟨known, id, rfl, rfl⟩)) hn
      · cases hn
        exact hcolor _ known

/-- The effects without children are made from nothing. -/
theorem Crafted.of_source {s : Source} {n : Node} (h : s.build.run id = .ok (n, last)) :
    Crafted joined given (some n) := by
  cases s with
  | color c =>
    cases h
    exact .leaf id (.color c) rfl
  | destColor =>
    cases h
    exact .leaf id .destColor rfl
  | linearGradient start finish c d =>
    cases h
    exact .leaf id (.linearGradient start finish c d) rfl

/-- The modulations put a blend on top of a new color. -/
theorem Crafted.of_modulate {child : Option Node} (hchild : Crafted joined given child)
    {c : Color Single} {mode : BlendMode} {n : Node}
    (h : (do blendNode (some (← color c)) child mode .skMode : Build Node).run id = .ok (n, last)) :
    Crafted joined given (some n) := by
  rw [color, Build.run_bind_of_ok (run_create _ _ _)] at h
  exact .of_blendNode (.leaf id (.color c) rfl) hchild h

/-- The effects of one child add at most two nodes on top of it. -/
theorem Crafted.of_modifier {m : Modifier} {child out : Option Node}
    (hchild : Crafted joined given child) (h : (m.build child).run id = .ok (out, last)) : Crafted joined given out := by
  cases m with
  | overrideInput c useUniform => exact .of_wrap hchild (fun _ => rfl) rfl h
  | swizzle s =>
    by_cases hs : s = .identity
    · obtain ⟨_, rfl, _⟩ | ⟨c, n, rfl, rfl, hn⟩ := run_mapM_eq_ok.mp h
      · exact .absent
      · rw [if_pos hs, Build.run_pure_eq_ok] at hn
        obtain ⟨rfl, _⟩ := hn
        exact hchild
    · simp only [Modifier.build, swizzle, if_neg hs] at h
      exact .of_wrap hchild (fun _ => rfl) rfl h
  | premul | deviceSpace => exact .of_wrap hchild (fun _ => rfl) rfl h
  | clamp toAlpha => exact .of_wrap hchild (fun _ => rfl) rfl h
  | matrix m => exact .of_wrap hchild (fun _ => rfl) rfl h
  | colorMatrix m =>
    obtain ⟨n, hn, rfl⟩ := Build.run_map_eq_ok.mp h
    obtain ⟨hfresh, rfl, _⟩ := run_colorMatrix_eq_ok.mp hn
    have hdeduced : (⟨false, (optimizationsOf child).constantOutput⟩ : Optimizations) =
        (Kind.colorMatrix m).deduced [child.map Node.optimizations] := by
      cases child <;> rfl
    rw [hdeduced]
    exact .unary id _ rfl hchild hfresh
  | mulChildByInputAlpha | mulInputByChildAlpha =>
    cases child with
    | none =>
      obtain ⟨rfl, _⟩ := Build.run_pure_eq_ok.mp h
      exact .absent
    | some c =>
      simp only [Modifier.build, mulChildByInputAlpha, mulInputByChildAlpha] at h
      exact .of_blend .absent hchild h
  | modulateAlpha c | modulateRgba c =>
    obtain ⟨n, hn, rfl⟩ := Build.run_map_eq_ok.mp h
    exact .of_modulate hchild hn

/-- Whatever a call yields was crafted from its operands, provided that this holds of the
composition that it is run with. -/
theorem Crafted.of_runWith {composition : Composition} {c : Call} {out : Option Node}
    (hcomposition : ∀ f g, c = .combine .compose f g →
      (composition f g).run id = .ok (out, last) → Crafted joined (fun n => n = f ∨ n = g) out)
    (h : (c.runWith composition).run id = .ok (out, last)) :
    Crafted joined (· ∈ c.operands) out := by
  cases c with
  | source s =>
    obtain ⟨n, hn, rfl⟩ := Build.run_map_eq_ok.mp h
    exact .of_source hn
  | modify m child => exact .of_modifier (.operand (by simp [Call.operands])) h
  | combine c f g =>
    cases c with
    | compose =>
      refine (hcomposition f g rfl h).mono ?_
      rintro n (rfl | rfl) <;> exact .operand (by simp [Call.operands])
    | blend mode behavior =>
      exact .of_blend (.operand (by simp [Call.operands])) (.operand (by simp [Call.operands])) h

/-- Whatever a call of a public constructor yields was crafted from its operands, and composition
puts nothing over anything but what its analysis leaves. -/
theorem Crafted.of_run {c : Call} {out : Option Node} (h : c.run.run id = .ok (out, last)) :
    Crafted (fun f inner => ∃ g, some f ∈ c.operands ∧ some g ∈ c.operands ∧ Joins f g inner)
      (· ∈ c.operands) out := by
  refine .of_runWith ?_ h
  rintro f g rfl h
  refine .of_compose (.operand (.inl rfl)) (.operand (.inr rfl)) ?_ h
  rintro n m inner rfl rfl hjoins
  exact ⟨m, by simp [Call.operands], by simp [Call.operands], hjoins⟩

end Effect

end PixelEffect
