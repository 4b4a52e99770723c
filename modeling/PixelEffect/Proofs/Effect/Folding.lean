import PixelEffect.Proofs.Effect.Refinement

namespace PixelEffect.Effect

open Node Build

/-- Composition without constant folding. -/
def composeUnfolded : Composition
  | none, g => pure g
  | f, none => pure f
  | some f, some g => some <$> composeNode f g

/-- A nest of calls of the public constructors. -/
inductive Recipe
  | absent
  | source (s : Source)
  | modify (m : Modifier) (child : Recipe)
  | combine (c : Combiner) (f g : Recipe)

namespace Recipe

/-- Runs the calls from the inside out, with `composition` in the place of `compose`. -/
def buildWith (composition : Composition) : Recipe → Build (Option Node)
  | absent => pure none
  | source s => some <$> s.build
  | modify m child => do m.build (← child.buildWith composition)
  | combine c f g => do
    let f ← f.buildWith composition
    let g ← g.buildWith composition
    c.buildWith composition f g

/-- Runs the calls from the inside out. -/
def build : Recipe → Build (Option Node) := buildWith compose

end Recipe

/-- The composition of two trees paints what the trees paint one after the other. -/
theorem paint_compose {Place : Type} {scene : Scene Place Single} {place : Place} {id : NodeId}
    {o : Optimizations} {f g : Node} {input out : Color Single} :
    (binary id .compose o (some f) (some g)).paint scene place input = .ok out ↔
      ∃ between, g.paint scene place input = .ok between ∧
        f.paint scene place between = .ok out := by
  rw [paint_of_operands (slots_content_binary ..), kind_binary]
  exact Except.bind_eq_ok

theorem paint_color {Place : Type} {scene : Scene Place Single} {place : Place} {id : NodeId}
    {o : Optimizations} {c input : Color Single} :
    (leaf id (.color c) o).paint scene place input = .ok c := rfl

/-- A composition that was built with folding covers the one without. -/
theorem composed_covers {f g f' g' n : Node} {analysis : SeriesAnalysis} {id last id' : NodeId}
    {o' : Optimizations} (hf : CoversNode f f') (hg : CoversNode g g')
    (hsound : analysis.Sound .unknown [g, f])
    (h : (composed f g analysis.eliminated).run id = .ok (n, last)) :
    CoversNode n (binary id' .compose o' (some f') (some g')) := by
  intro Place scene place input out hout
  obtain ⟨between, hbetween, hout⟩ := paint_compose.mp hout
  replace hbetween := hg Place scene place _ _ hbetween
  replace hout := hf Place scene place _ _ hout
  have hinner : paintSeries scene place [g] input = .ok between :=
    Except.bind_eq_ok.mpr ⟨between, hbetween, rfl⟩
  have hboth : paintSeries scene place [g, f] input = .ok out :=
    Except.bind_eq_ok.mpr ⟨between, hbetween, Except.bind_eq_ok.mpr ⟨out, hout, rfl⟩⟩
  have heliminated := hsound.eliminated
  generalize analysis.eliminated = eliminated at h heliminated
  obtain _ | ⟨count, known⟩ := eliminated
  · obtain ⟨_, _, rfl, _⟩ := run_composeNode_eq_ok.mp h
    exact paint_compose.mpr ⟨between, hbetween, hout⟩
  · obtain ⟨hpos, hle, hyields⟩ := heliminated count known rfl
    match count, hpos, hle with
    | 1, _, _ =>
      rw [composed, color, run_bind_of_ok (run_create _ _ _)] at h
      obtain ⟨_, _, rfl, _⟩ := run_composeNode_eq_ok.mp h
      rw [hyields Place scene place input between trivial hinner] at hout
      exact paint_compose.mpr ⟨known, paint_color, hout⟩
    | 2, _, _ =>
      cases h
      rw [hyields Place scene place input out trivial hboth]
      exact paint_color

/-- Folding attaches nothing but fresh trees. -/
theorem exists_run_composed {f g : Node} (hf : f.isFresh) (hg : g.isFresh)
    (eliminated : Option (Nat × Color Single)) (id : NodeId) :
    ∃ n last, (composed f g eliminated).run id = .ok (n, last) := by
  obtain _ | ⟨_ | _ | count, known⟩ := eliminated
  · exact ⟨_, _, run_composeNode_eq_ok.mpr ⟨hf, hg, rfl, rfl⟩⟩
  · exact ⟨_, _, run_create _ _ _⟩
  · rw [composed, color, run_bind_of_ok (run_create _ _ _)]
    exact ⟨_, _, run_composeNode_eq_ok.mpr ⟨hf, isFresh_leaf _ _ _, rfl, rfl⟩⟩
  · exact ⟨_, _, run_create _ _ _⟩

/-- Composing with and without folding, from operands of which one covers the other. -/
theorem tracks_compose {f f' g g' : Option Node} (hf : Operable f) (hf' : Operable f')
    (hg : Operable g) (hg' : Operable g') (hcf : Covers f f') (hcg : Covers g g') :
    Tracks Covers (compose f g) (composeUnfolded f' g') := by
  cases hcf with
  | none => exact .pure hcg
  | @some f' f hcf =>
    cases hcg with
    | none => exact .pure (.some hcf)
    | @some g' g hcg =>
      intro id
      cases hanalysis : SeriesAnalysis.ofSeries .unknown [g, f] with
      | error e =>
        obtain ⟨v, rfl⟩ := SeriesAnalysis.ofSeries_eq_error hanalysis
        exact .inl ⟨v, run_compose_of_error hanalysis⟩
      | ok analysis =>
        obtain ⟨n, last, hn⟩ :=
          exists_run_composed (hf.fresh f rfl) (hg.fresh g rfl) analysis.eliminated id
        refine .inr ⟨_, last, run_compose_eq_ok.mpr ⟨analysis, n, hanalysis, hn, rfl⟩, ?_⟩
        intro id'
        have hsound : analysis.Sound .unknown [g, f] := by
          refine SeriesAnalysis.sound_ofSeries ?_ hanalysis
          intro m hm
          rcases List.mem_cons.mp hm with rfl | hm
          · exact hg.deduced m rfl
          · exact hf.deduced m (congrArg some (List.mem_singleton.mp hm).symm)
        have hplain := run_composeNode_eq_ok.mpr
          ⟨hf'.fresh f' rfl, hg'.fresh g' rfl, rfl, (rfl : id'.next = id'.next)⟩
        exact ⟨_, _, run_map_eq_ok.mpr ⟨_, hplain, rfl⟩,
          .some (composed_covers hcf hcg hsound hn)⟩

/-- Only trees that are put together from the operands come out of a composition, -/
theorem crafted_of_compose {f g out : Option Node} {id last : NodeId}
    (h : (compose f g).run id = .ok (out, last)) :
    Crafted (fun _ _ => True) (fun n => n = f ∨ n = g) out :=
  .of_compose (.operand (.inl rfl)) (.operand (.inr rfl)) (fun _ _ _ _ _ _ => trivial) h

/-- and out of one without folding, too. -/
theorem crafted_of_composeUnfolded {f g out : Option Node} {id last : NodeId}
    (h : (composeUnfolded f g).run id = .ok (out, last)) :
    Crafted (fun _ _ => True) (fun n => n = f ∨ n = g) out := by
  cases f with
  | none =>
    obtain ⟨rfl, _⟩ := run_pure_eq_ok.mp h
    exact .operand (.inr rfl)
  | some f =>
    cases g with
    | none =>
      obtain ⟨rfl, _⟩ := run_pure_eq_ok.mp h
      exact .operand (.inl rfl)
    | some g =>
      obtain ⟨n, hn, rfl⟩ := run_map_eq_ok.mp h
      exact .of_composeNode (.operand (.inl rfl)) (.operand (.inr rfl)) trivial hn

namespace Recipe

/-- What comes out of a recipe is fresh, and its optimizations are deduced. -/
theorem operable_of_buildWith {composition : Composition}
    (hcomposition : ∀ {f g out id last}, (composition f g).run id = .ok (out, last) →
      Crafted (fun _ _ => True) (fun n => n = f ∨ n = g) out)
    (r : Recipe) {id last : NodeId} {out : Option Node}
    (h : (r.buildWith composition).run id = .ok (out, last)) : Operable out := by
  have hcall : ∀ (c : Call) {id last out}, (c.runWith composition).run id = .ok (out, last) →
      (∀ n, n ∈ c.operands → Operable n) → Operable out :=
    fun c _ _ _ hrun hoperands =>
      (Crafted.of_runWith (fun _ _ _ h => hcomposition h) hrun).operable hoperands
  induction r generalizing id last out with
  | absent =>
    obtain ⟨rfl, _⟩ := run_pure_eq_ok.mp h
    exact operable_none
  | source s => exact hcall (.source s) h (by simp [Call.operands])
  | modify m child ih =>
    obtain ⟨n, next, hn, h⟩ := run_bind_eq_ok.mp h
    exact hcall (.modify m n) h (by simpa [Call.operands] using ih hn)
  | combine c f g ihf ihg =>
    obtain ⟨n, next, hn, h⟩ := run_bind_eq_ok.mp h
    obtain ⟨m, next', hm, h⟩ := run_bind_eq_ok.mp h
    exact hcall (.combine c n m) h (by simpa [Call.operands] using ⟨ihf hn, ihg hm⟩)

/-- The folding build of a recipe covers the one without folding. -/
theorem tracks_build (r : Recipe) : Tracks Covers r.build (r.buildWith composeUnfolded) := by
  have hoperable : ∀ (r : Recipe) {id out last}, r.build.run id = .ok (out, last) → Operable out :=
    fun r => operable_of_buildWith crafted_of_compose r
  have hplain : ∀ (r : Recipe) {id out last},
      (r.buildWith composeUnfolded).run id = .ok (out, last) → Operable out :=
    fun r => operable_of_buildWith crafted_of_composeUnfolded r
  induction r with
  | absent => exact .pure .none
  | source s => exact (tracks_source s).map fun _ _ h => .some h
  | modify m child ih =>
    refine (ih.and_results (hoperable child) (hplain child)).bind ?_
    rintro n n' ⟨hcovers, hn, hn'⟩
    exact tracks_modifier m hn hn' hcovers
  | combine c f g ihf ihg =>
    refine (ihf.and_results (hoperable f) (hplain f)).bind ?_
    rintro n n' ⟨hcovers, hn, hn'⟩
    refine (ihg.and_results (hoperable g) (hplain g)).bind ?_
    rintro m m' ⟨hcovers', hm, hm'⟩
    cases c with
    | compose => exact tracks_compose hn hn' hm hm' hcovers hcovers'
    | blend mode behavior => exact tracks_blend mode behavior hn hn' hm hm' hcovers hcovers'

/-- Constant folding is transparent. Unless the folding build breaks a rule of the library, both
builds yield a tree or neither does, from whatever identities they start. On trees with the
constant-output flag painting is the evaluation of constant inputs. In every scene, at every place
and for every input the folded tree paints the very color that the tree without folding paints. -/
theorem folding_is_transparent (r : Recipe) (id id' : NodeId)
    (h : ∀ v, r.build.run id ≠ .error (.violation v)) :
    ∃ folded last plain last', r.build.run id = .ok (folded, last) ∧
      (r.buildWith composeUnfolded).run id' = .ok (plain, last') ∧
      ((folded = none ∧ plain = none) ∨
        ∃ n m, folded = some n ∧ plain = some m ∧
          (∀ tree, tree = n ∨ tree = m → tree.optimizations.constantOutput →
            ∀ (Place : Type) (scene : Scene Place Single) (place : Place),
              tree.paint scene place = tree.shade) ∧
          ∀ (Place : Type) (scene : Scene Place Single) (place : Place)
            (input c : Color Single),
            m.paint scene place input = .ok c → n.paint scene place input = .ok c) := by
  obtain ⟨v, hv⟩ | ⟨folded, last, hfolded, htracks⟩ := r.tracks_build id
  · exact absurd hv (h v)
  · obtain ⟨plain, last', hplain, hcovers⟩ := htracks id'
    have hoperable := r.operable_of_buildWith crafted_of_compose hfolded
    have hoperable' := r.operable_of_buildWith crafted_of_composeUnfolded hplain
    refine ⟨folded, last, plain, last', hfolded, hplain, ?_⟩
    cases hcovers with
    | none => exact .inl ⟨rfl, rfl⟩
    | @some m n hcovers =>
      refine .inr ⟨n, m, rfl, rfl, ?_, hcovers⟩
      rintro tree (rfl | rfl) hconstant Place scene place
      · exact (hoperable.deduced _ rfl).paint_eq_shade hconstant scene place
      · exact (hoperable'.deduced _ rfl).paint_eq_shade hconstant scene place

/-- An opaque color over the destination: the folding drops the read of the destination. -/
def colorOverDestination : Recipe :=
  .combine .compose (.source (.color .white)) (.source .destColor)

/-- The composition above paints what it paints when the color is not folded. -/
theorem folding_is_transparent_colorOverDestination :
    (∀ v, colorOverDestination.build.run ⟨0⟩ ≠ .error (.violation v)) ∧
      ∃ n last m last', colorOverDestination.build.run ⟨0⟩ = .ok (some n, last) ∧
        (colorOverDestination.buildWith composeUnfolded).run ⟨7⟩ = .ok (some m, last') ∧
        ∀ (Place : Type) (scene : Scene Place Single) (place : Place) (input c : Color Single),
          m.paint scene place input = .ok c → n.paint scene place input = .ok c := by
  have hrun : ∀ v, colorOverDestination.build.run ⟨0⟩ ≠ .error (.violation v) := by
    intro v h
    cases h
  refine ⟨hrun, ?_⟩
  obtain ⟨folded, last, plain, last', hfolded, hplain, hcase⟩ :=
    folding_is_transparent colorOverDestination ⟨0⟩ ⟨7⟩ hrun
  obtain ⟨rfl, _⟩ | ⟨n, m, rfl, rfl, _, hcovers⟩ := hcase
  · cases hfolded
  · exact ⟨n, last, m, last', hfolded, hplain, hcovers⟩

end Recipe

end PixelEffect.Effect
