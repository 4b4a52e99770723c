import PixelEffect.Proofs.Effect.Evaluation
import PixelEffect.Proofs.Effect.Folding

namespace PixelEffect

namespace SeriesAnalysis

open Node

/-- Folding the tree behind a color of which this much is known comes to the premultiplied clamp of
a color that has a NaN for alpha. -/
def FoldsNaN (known : Option (Color Single)) (n : Node) : Prop :=
  n.optimizations.constantOutput ∧ ∃ input, n.MeetsNaN input ∧
    (known = some input ∨ known = none ∧ n.ignoresInput ∧ input = .transparent)

/-- Analysing the series comes to a tree whose folding does. -/
def MeetsNaN (entering : EnteringColor) (series : List Node) : Prop :=
  ∃ done n rest analysis, series = done ++ n :: rest ∧ ofSeries entering done = .ok analysis ∧
    FoldsNaN analysis.known n

variable {entering : EnteringColor} {series : List Node} {n : Node} {e : Failure}

/-- Folding takes any error for an answer. -/
theorem folded?_eq_error_iff {known : Option (Color Single)} (h : n.Standard) :
    folded? known n = .error e ↔ e = .violation .clampBounds ∧ FoldsNaN known n := by
  have hfrom : ∀ input, (known = some input ∨ known = none ∧ n.ignoresInput ∧ input = .transparent) ↔
      (known <|> if n.ignoresInput then some .transparent else none) = some input := by
    intro input
    cases known with
    | some color => simp
    | none => by_cases hignores : n.ignoresInput <;> simp [hignores, eq_comm (a := input)]
  unfold FoldsNaN folded?
  simp only [hfrom]
  split
  · rename_i hnone
    rw [hnone]
    simp
  · rename_i input hsome
    rw [hsome]
    by_cases hconstant : n.optimizations.constantOutput
    · simp only [hconstant, if_true, Option.some.injEq, exists_eq_right', true_and,
        ← h.shade_eq_error_iff hconstant]
      cases hshade : n.shade input with
      | ok c => simp
      | error e' =>
        obtain ⟨rfl, _⟩ := (h.shade_eq_error_iff hconstant).mp hshade
        simp only [Except.error.injEq]
    · simp [hconstant]

/-- A step breaks off exactly where it folds a clamp over a NaN. -/
theorem step_eq_error_iff {analysis : SeriesAnalysis} (h : n.Standard) :
    step analysis n = .error e ↔ e = .violation .clampBounds ∧ FoldsNaN analysis.known n := by
  rw [step, Except.bind_eq_error, ← folded?_eq_error_iff h]
  refine or_iff_left ?_
  rintro ⟨folded, _, h⟩
  cases folded <;> cases h

/-- An analysis breaks off exactly at a tree whose folding comes to such a clamp. -/
theorem ofSeries_eq_error_iff (h : ∀ n, n ∈ series → n.Standard) :
    ofSeries entering series = .error e ↔
      e = .violation .clampBounds ∧ MeetsNaN entering series := by
  unfold MeetsNaN
  rw [ofSeries, Except.foldlM_eq_error]
  constructor
  · rintro ⟨done, n, rest, analysis, rfl, hdone, hstep⟩
    obtain ⟨he, hfolds⟩ := (step_eq_error_iff (h n (by simp))).mp hstep
    exact ⟨he, done, n, rest, analysis, rfl, hdone, hfolds⟩
  · rintro ⟨he, done, n, rest, analysis, rfl, hdone, hfolds⟩
    exact ⟨done, n, rest, analysis, rfl, hdone, (step_eq_error_iff (h n (by simp))).mpr ⟨he, hfolds⟩⟩

end SeriesAnalysis

namespace Effect

open Node Build

theorem succeeds_wrap {kind : Kind} {o : Optimizations} {child : Node} {sampling : Sampling}
    (h : child.isFresh) : Succeeds (wrap kind o child sampling) :=
  fun _ => ⟨_, _, run_wrap_eq_ok.mpr ⟨h, rfl, rfl⟩⟩

theorem succeeds_mapM {child : Option Node} {f : Node → Build Node}
    (h : ∀ c, child = some c → Succeeds (f c)) : Succeeds (child.mapM f) := by
  cases child with
  | none => exact .pure none
  | some c =>
    rw [Option.mapM_some]
    exact (h c rfl).map some

theorem succeeds_blendNode {source destination : Option Node} {mode : BlendMode}
    {behavior : BlendBehavior} (hsource : FreshIfAny source)
    (hdestination : FreshIfAny destination) :
    Succeeds (blendNode source destination mode behavior) :=
  fun _ => ⟨_, _, run_blendNode_eq_ok.mpr ⟨hsource, hdestination, rfl, rfl⟩⟩

/-- Blending succeeds whether it is cut short or not. -/
theorem succeeds_blend {source destination : Option Node} {mode : BlendMode}
    {behavior : BlendBehavior} (hsource : FreshIfAny source)
    (hdestination : FreshIfAny destination) :
    Succeeds (blend source destination mode behavior) := by
  cases mode with
  | clear => exact Succeeds.map (fun id => ⟨_, _, run_create _ _ id⟩) some
  | src => exact .pure source
  | dst => exact .pure destination
  | _ => exact (succeeds_blendNode hsource hdestination).map some

/-- Modulating makes two nodes, and both can be had. -/
theorem succeeds_modulate {child : Option Node} (c : Color Single) (mode : BlendMode)
    (h : FreshIfAny child) : Succeeds (do blendNode (some (← color c)) child mode .skMode) := by
  intro id
  rw [color, run_bind_of_ok (run_create _ _ _)]
  exact succeeds_blendNode (by rintro _ ⟨⟩; exact isFresh_leaf _ _ _) h _

/-- The effects without children can always be had. -/
theorem succeeds_source (s : Source) : Succeeds s.build := by
  intro id
  cases s <;> exact ⟨_, _, run_create _ _ _⟩

/-- The effects of one child can be had on top of a fresh child. -/
theorem succeeds_modifier (m : Modifier) {child : Option Node} (h : FreshIfAny child) :
    Succeeds (m.build child) := by
  cases m with
  | swizzle s =>
    refine succeeds_mapM fun c hc => ?_
    split
    · exact .pure c
    · exact succeeds_wrap (h c hc)
  | overrideInput | premul | clamp | deviceSpace | matrix =>
    exact succeeds_mapM fun c hc => succeeds_wrap (h c hc)
  | colorMatrix m =>
    exact Succeeds.map (fun _ => ⟨_, _, run_colorMatrix_eq_ok.mpr ⟨h, rfl, rfl⟩⟩) some
  | mulChildByInputAlpha | mulInputByChildAlpha =>
    cases child with
    | none => exact .pure none
    | some c =>
      simp only [Modifier.build, mulChildByInputAlpha, mulInputByChildAlpha]
      exact succeeds_blend operable_none.fresh h
  | modulateAlpha c | modulateRgba c => exact (succeeds_modulate c _ h).map some

/-- A tree that the public constructors have made and that nobody has attached, or none. -/
structure Available (n : Option Node) : Prop where
  fresh : FreshIfAny n
  standard : ∀ c, n = some c → c.Standard

/-- What is put together from available trees is available again. -/
theorem available_of_crafted {joined : Node → Node → Prop} {given : Option Node → Prop}
    (hgiven : ∀ n, given n → Available n) {n : Option Node} (h : Crafted joined given n) :
    Available n where
  fresh := by
    have hoperable : ∀ n, given n → Operable n := fun n hn =>
      ⟨(hgiven n hn).fresh, fun c hc => ((hgiven n hn).standard c hc).deduced⟩
    exact (h.operable hoperable).fresh
  standard := h.standard fun c hc => (hgiven _ hc).standard c rfl

/-- Composition breaks off exactly where a clamp in its operands meets a NaN. -/
theorem run_compose_eq_error_iff {f g : Node} {id : NodeId} {e : Failure}
    (hf : Available (some f)) (hg : Available (some g)) :
    (compose (some f) (some g)).run id = .error e ↔
      e = .violation .clampBounds ∧ SeriesAnalysis.MeetsNaN .unknown [g, f] := by
  rw [← SeriesAnalysis.ofSeries_eq_error_iff]
  · cases hanalysis : SeriesAnalysis.ofSeries .unknown [g, f] with
    | error e' => rw [run_compose_of_error hanalysis, Except.error.injEq, Except.error.injEq]
    | ok analysis =>
      have hsucceeds := Succeeds.map (exists_run_composed (hf.fresh f rfl) (hg.fresh g rfl)
        analysis.eliminated) some
      rw [run_compose_of_ok hanalysis]
      exact ⟨fun h => absurd h hsucceeds.ne_error, fun h => (by cases h)⟩
  · intro n hn
    rcases List.mem_cons.mp hn with rfl | hn
    · exact hg.standard _ rfl
    · exact hf.standard _ (congrArg some (List.mem_singleton.mp hn).symm)

/-- A call succeeds on available operands unless it composes two trees. -/
theorem Call.succeeds {c : Call} (h : ∀ n, n ∈ c.operands → Available n)
    (hc : ∀ f g, c ≠ .combine .compose (some f) (some g)) : Succeeds c.run := by
  cases c with
  | source s => exact (succeeds_source s).map some
  | modify m child => exact succeeds_modifier m (h child (by simp [Call.operands])).fresh
  | combine c f g =>
    have hf := h f (by simp [Call.operands])
    have hg := h g (by simp [Call.operands])
    cases c with
    | blend mode behavior => exact succeeds_blend hf.fresh hg.fresh
    | compose =>
      cases f with
      | none => exact .pure g
      | some f =>
        cases g with
        | none => exact .pure (some f)
        | some g => exact absurd rfl (hc f g)

/-- The only public constructor that can break off is composition, and only because it evaluates
what it folds. -/
theorem Call.run_eq_error_iff {c : Call} {id : NodeId} {e : Failure}
    (h : ∀ n, n ∈ c.operands → Available n) :
    c.run.run id = .error e ↔ e = .violation .clampBounds ∧
      ∃ f g, c = .combine .compose (some f) (some g) ∧
        SeriesAnalysis.MeetsNaN .unknown [g, f] := by
  by_cases hc : ∃ f g, c = .combine .compose (some f) (some g)
  · obtain ⟨f, g, rfl⟩ := hc
    refine (run_compose_eq_error_iff (h _ (by simp [Call.operands]))
      (h _ (by simp [Call.operands]))).trans (and_congr_right fun _ => ?_)
    constructor
    · exact fun h => ⟨f, g, rfl, h⟩
    · rintro ⟨_, _, ⟨⟩, h⟩
      exact h
  · have hsucceeds := Call.succeeds h fun f g hcall => hc ⟨f, g, hcall⟩
    constructor
    · exact fun h => absurd h hsucceeds.ne_error
    · rintro ⟨_, f, g, hcall, _⟩
      exact absurd ⟨f, g, hcall⟩ hc

end Effect

end PixelEffect
