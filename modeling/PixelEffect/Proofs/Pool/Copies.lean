import PixelEffect.Proofs.Node.Copy
import PixelEffect.Proofs.Pool.Decoding
import PixelEffect.Proofs.Pool.Identities

namespace PixelEffect.Pool

open Node

/-- What the node at the end of a path below `n` has in common with the node in the same place of a
copy of `n`. Two flags come from above: the original has them from the edges above `n` and from
those between `n` and the node, the copy from the latter only. -/
structure Copied (above : List Sampling) (n : Node) (below : Path) (original copy : Node) :
    Prop where
  kind : copy.kind = original.kind
  slots : copy.slots.map Option.isSome = original.slots.map Option.isSome
  optimizations : copy.optimizations = original.optimizations
  capabilities : copy.capabilities = original.capabilities
  sampling : below ≠ [] → copy.sampling = original.sampling
  readsDestination : copy.flags.readsDestination = original.flags.readsDestination
  usesCoordsDirectly : copy.flags.usesCoordsDirectly = original.flags.usesCoordsDirectly
  usesCoordsIndirectly : copy.flags.usesCoordsIndirectly = original.flags.usesCoordsIndirectly
  explicitCoords :
    original.flags.explicitCoords = (above ++ edges below n).any Sampling.isExplicit ∧
      copy.flags.explicitCoords = (edges below n).any Sampling.isExplicit
  netPerspective :
    original.flags.netPerspective = (above ++ edges below n).any Sampling.hasPerspective ∧
      copy.flags.netPerspective = (edges below n).any Sampling.hasPerspective

/-- Without edges above there is no difference. -/
theorem Copied.flags_eq {n original copy : Node} {below : Path}
    (h : Copied [] n below original copy) : copy.flags = original.flags := by
  have hdestination := h.readsDestination
  have hdirect := h.usesCoordsDirectly
  have hindirect := h.usesCoordsIndirectly
  have hexplicit : copy.flags.explicitCoords = original.flags.explicitCoords :=
    h.explicitCoords.2.trans h.explicitCoords.1.symm
  have hperspective : copy.flags.netPerspective = original.flags.netPerspective :=
    h.netPerspective.2.trans h.netPerspective.1.symm
  generalize copy.flags = f at *
  generalize original.flags = g at *
  cases f
  cases g
  simp_all only

/-- A copy in the making: the flags of both trees are exact, and the two have one blueprint, up to
how they are sampled themselves. -/
theorem copied_of_blueprint {n copy original counterpart : Node} {above : List Sampling}
    {below : Path}
    (hn : n.Flagged (above.any Sampling.isExplicit) (above.any Sampling.hasPerspective))
    (hcopy : copy.Flagged false false)
    (hblueprint : copy.blueprint = n.blueprint.resampled .unsampled)
    (hm : n.at? below = some original) (hm' : copy.at? below = some counterpart) :
    Copied above n below original counterpart := by
  have hflagged := hn.at? hm
  have hflagged' := hcopy.at? hm'
  have hplaces := at?_map_blueprint hblueprint below
  rw [hm, hm', Option.map_some, Option.map_some, Option.some.injEq] at hplaces
  obtain ⟨sampling, hbelow⟩ : ∃ sampling,
      counterpart.blueprint = original.blueprint.resampled sampling ∧
        (below ≠ [] → sampling = original.sampling) := by
    by_cases hempty : below = []
    · rw [if_pos hempty] at hplaces
      exact ⟨_, hplaces, fun h => absurd hempty h⟩
    · rw [if_neg hempty] at hplaces
      refine ⟨original.sampling, ?_, fun _ => rfl⟩
      rw [hplaces]
      cases original
      rfl
  obtain ⟨hblueprint', hsampling⟩ := hbelow
  obtain ⟨hdestination, hdirect, hindirect, hcapabilities⟩ :=
    hflagged'.eq_of_blueprint hflagged hblueprint'
  rw [← blueprint_resampled, blueprint_eq_iff] at hblueprint'
  obtain ⟨hkind, hsampling', hoptimizations, hslots⟩ := hblueprint'
  have hedges := edges_eq_of_blueprint hblueprint below
  obtain ⟨data, slots⟩ := original
  exact
    { kind := hkind
      slots := (map_slots_eq_iff.mp hslots).1
      optimizations := hoptimizations
      capabilities := hcapabilities
      sampling := fun h => hsampling'.trans (hsampling h)
      readsDestination := hdestination
      usesCoordsDirectly := hdirect
      usesCoordsIndirectly := hindirect
      explicitCoords := by
        rw [List.any_append, ← (flagged_iff.mp hflagged).1.explicit, ← hedges]
        exact ⟨rfl, (flagged_iff.mp hflagged').1.explicit⟩
      netPerspective := by
        rw [List.any_append, ← (flagged_iff.mp hflagged).1.perspective, ← hedges]
        exact ⟨rfl, (flagged_iff.mp hflagged').1.perspective⟩ }

/-- Copying rebuilds faithfully. Take any node of a tree that came about without exchanges, be it
the root or any node below it. It can be copied, and the copy is a fresh root. The copy is
structurally equal to the node and has the same key, and none of its nodes has the identity of a
node that there is. The copy has a node exactly where the original has one, and the two have
everything in common that does not come from above the original. So the copy of a root has the same
flags everywhere. -/
theorem copies_faithful {allowed : Operation → Prop} {pool : Pool} (hpool : Reachable allowed pool)
    {root n : Node} {path : Path} (hroot : root ∈ pool.trees) (hn : root.at? path = some n) :
    ∃ copy last, n.clone.run pool.next = .ok (copy, last) ∧
      copy.isFresh ∧ copy.parent = none ∧ copy.sampling = .unsampled ∧
      copy.alike n ∧ ProgramKey.ofNode copy = ProgramKey.ofNode n ∧
      (∀ tree, tree ∈ pool.trees → ∀ a, a ∈ tree.preorder → ∀ b, b ∈ copy.preorder →
        b.id ≠ a.id) ∧
      (∀ below, n.at? below = none ∧ copy.at? below = none ∨
        ∃ m m', n.at? below = some m ∧ copy.at? below = some m' ∧
          Copied (edges path root) n below m m') ∧
      (path = [] → ∀ below m m', n.at? below = some m → copy.at? below = some m' →
        m'.flags = m.flags) := by
  obtain ⟨copy, last, hrun⟩ := succeeds_clone n pool.next
  have hblueprint := blueprint_of_run_clone hrun
  have hfresh : copy.isFresh := grows_fresh.run_clone hrun
  have hcopy : copy.Grown := grows_grown.run_clone hrun
  have hflagged := (hpool.preserves (preserved_grown allowed) root hroot).2.at? hn
  simp only [Bool.false_or] at hflagged
  have hcopied : ∀ below m m', n.at? below = some m → copy.at? below = some m' →
      Copied (edges path root) n below m m' := fun below m m' hm hm' =>
    copied_of_blueprint hflagged hcopy.2 hblueprint hm hm'
  have hdeclared := (hpool.preserves (preserved_declared allowed) root hroot).at? hn
  have halike : copy.alike n := alike_iff.mpr
    (bare_eq_of_content (grows_declared.run_clone hrun) hdeclared (content_of_run_clone hrun))
  refine ⟨copy, last, hrun, hfresh, ?_, ?_, halike, ?_, ?_, ?_, ?_⟩
  · simp only [isFresh, Bool.and_eq_true, Option.isNone_iff_eq_none] at hfresh
    exact hfresh.1.1.1
  · rw [← blueprint_resampled, blueprint_eq_iff] at hblueprint
    rw [hblueprint.2.1, sampling_resampled]
  · exact (key_eq_iff_edges_eq halike).mpr (edges_eq_of_blueprint hblueprint)
  · intro tree htree a ha b hb heq
    have hold := hpool.issued.mem (mem_idsOf.mpr ⟨tree, htree, List.mem_map_of_mem ha⟩)
    have hnew := ((issues_clone n).of_run hrun).mem (List.mem_map_of_mem hb)
    simp only [List.not_mem_nil, false_or, heq] at hold hnew
    omega
  · intro below
    have hplaces := at?_map_blueprint hblueprint below
    cases hm : n.at? below with
    | none =>
      rw [hm] at hplaces
      exact .inl ⟨rfl, Option.map_eq_none_iff.mp hplaces⟩
    | some m =>
      rw [hm] at hplaces
      obtain ⟨m', hm', _⟩ := Option.map_eq_some_iff.mp hplaces
      exact .inr ⟨m, m', rfl, hm', hcopied below m m' hm hm'⟩
  · rintro rfl below m m' hm hm'
    exact (hcopied below m m' hm hm').flags_eq

/-- The copy of a gradient that is sampled at the position of the fragment is not sampled there. -/
theorem copies_faithful_sampledGradient :
    ∃ n copy last, sampledGradient.at? [0] = some n ∧ n.clone.run ⟨2⟩ = .ok (copy, last) ∧
      copy.alike n ∧ n.flags.explicitCoords = true ∧ copy.flags.explicitCoords = false := by
  have hchild : sampledGradient.at? [0] = some _ := rfl
  obtain ⟨copy, last, hrun, _, _, _, halike, _, _, hcopied, _⟩ :=
    copies_faithful reachable_sampledGradient (List.mem_singleton.mpr rfl) hchild
  obtain ⟨hnone, _⟩ | ⟨m, m', hm, hm', hcopied⟩ := hcopied []
  · cases hnone
  · cases hm
    cases hm'
    exact ⟨_, copy, last, rfl, hrun, halike, rfl, hcopied.explicitCoords.2⟩

end PixelEffect.Pool
