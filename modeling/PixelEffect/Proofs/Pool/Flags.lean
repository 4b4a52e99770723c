import PixelEffect.Proofs.Node.Flags
import PixelEffect.Proofs.Pool.Basic

namespace PixelEffect

theorem Kind.usesCoords_iff {kind : Kind} :
    kind.usesCoords ↔ kind.effectClass = .linearGradient := by
  cases kind <;> simp [usesCoords, effectClass]

theorem Kind.readsDestination_iff {kind : Kind} :
    kind.readsDestination ↔ kind.effectClass = .destColor := by
  cases kind <;> simp [readsDestination, effectClass]

theorem Kind.usesFragCoord_iff {kind : Kind} :
    kind.usesFragCoord ↔ kind.effectClass = .deviceSpace := by
  cases kind <;> simp [usesFragCoord, effectClass]

namespace Node

/-- What children report is asked slot by slot. -/
theorem any_reports {n : Node} {Q : Report → Bool} :
    (reports n.slots).any Q ↔ ∃ child, some child ∈ n.slots ∧ Q child.report := by
  simp only [reports, List.any_eq_true, List.mem_filterMap, List.mem_map]
  constructor
  · rintro ⟨r, ⟨_, ⟨slot, hslot, rfl⟩, hr⟩, hQ⟩
    obtain ⟨child, rfl, rfl⟩ := Option.map_eq_some_iff.mp hr
    exact ⟨child, hslot, hQ⟩
  · rintro ⟨child, hchild, hQ⟩
    exact ⟨child.report, ⟨_, ⟨some child, hchild, rfl⟩, rfl⟩, hQ⟩

/-- A flag that travels up over some edges is set exactly if a path over such edges leads to a node
that sets it itself. -/
theorem Flagged.pulled_iff (flag : Node → Bool) (own : Kind → Bool) (passes : Sampling → Bool)
    (hflag : ∀ {n : Node} {explicit perspective : Bool}, n.Flagged explicit perspective →
      (flag n ↔ own n.kind ∨
        ∃ child, some child ∈ n.slots ∧ passes child.sampling ∧ flag child))
    {n : Node} {explicit perspective : Bool} (h : n.Flagged explicit perspective) :
    flag n ↔ ∃ path m, n.at? path = some m ∧ (∀ u, u ∈ edges path n → passes u) ∧ own m.kind := by
  induction n generalizing explicit perspective with
  | mk data slots ih =>
    rw [hflag h, exists_path_iff (Q := fun es m => (∀ u, u ∈ es → passes u) ∧ own m.kind)]
    refine or_congr (by simp) (exists_congr fun child => and_congr_right fun hchild => ?_)
    rw [ih child hchild ((flagged_iff.mp h).2.2 child hchild)]
    simp only [List.forall_mem_cons]
    constructor
    · rintro ⟨hpasses, path, m, hm, hedges, hown⟩
      exact ⟨path, m, hm, ⟨hpasses, hedges⟩, hown⟩
    · rintro ⟨path, m, hm, ⟨hpasses, hedges⟩, hown⟩
      exact ⟨hpasses, path, m, hm, hedges, hown⟩

section

variable {explicit perspective : Bool} {n : Node}

/-- Where flags are exact, a tree says that it reads the destination if some node of it does. -/
theorem Flagged.readsDestination_iff (h : n.Flagged explicit perspective) :
    n.flags.readsDestination ↔ n.Contains .destColor := by
  refine (pulled_iff (fun n => n.flags.readsDestination) Kind.readsDestination
    (fun _ => true) ?_ h).trans (by simp [Kind.readsDestination_iff, Contains])
  intro n explicit perspective h
  rw [flags, (flagged_iff.mp h).1.destination, Bool.or_eq_true, any_reports]
  simp [report, kind]

theorem Flagged.fragCoord_iff (h : n.Flagged explicit perspective) :
    n.capabilities.fragCoord ↔ n.Contains .deviceSpace := by
  refine (pulled_iff (fun n => n.capabilities.fragCoord) Kind.usesFragCoord
    (fun _ => true) ?_ h).trans (by simp [Kind.usesFragCoord_iff, Contains])
  intro n explicit perspective h
  rw [capabilities, (flagged_iff.mp h).1.fragCoord, Bool.or_eq_true, any_reports]
  simp [report, kind]

theorem Flagged.usesCoordsDirectly_iff (h : n.Flagged explicit perspective) :
    n.flags.usesCoordsDirectly ↔ n.kind.effectClass = .linearGradient := by
  rw [flags, (flagged_iff.mp h).1.direct, Kind.usesCoords_iff]
  rfl

/-- Coordinates are used indirectly through children that are sampled where the node itself is. -/
theorem Flagged.indirect_iff (h : n.Flagged explicit perspective) :
    n.flags.usesCoordsIndirectly ↔
      ∃ child, some child ∈ n.slots ∧ (!child.sampling.isExplicit) ∧ child.usesCoords := by
  rw [flags, (flagged_iff.mp h).1.indirect, any_reports]
  simp [report]

/-- Coordinates reach every node that uses them along edges that are not explicit. -/
theorem Flagged.usesCoords_iff (h : n.Flagged explicit perspective) :
    n.usesCoords ↔ ∃ path m, n.at? path = some m ∧
      (∀ u, u ∈ edges path n → !u.isExplicit) ∧ m.kind.usesCoords := by
  refine pulled_iff usesCoords Kind.usesCoords (fun u => !u.isExplicit) ?_ h
  intro n explicit perspective h
  rw [usesCoords, Bool.or_eq_true, h.indirect_iff, h.usesCoordsDirectly_iff, Kind.usesCoords_iff]

/-- Coordinates are used indirectly by a gradient further down, along edges that are not
explicit. -/
theorem Flagged.usesCoordsIndirectly_iff (h : n.Flagged explicit perspective) :
    n.flags.usesCoordsIndirectly ↔ ∃ path m, n.at? path = some m ∧ path ≠ [] ∧
      (∀ u, u ∈ edges path n → ¬u.isExplicit) ∧ m.kind.effectClass = .linearGradient := by
  have hchildren := (flagged_iff.mp h).2.2
  rw [h.indirect_iff]
  constructor
  · rintro ⟨child, hchild, hexplicit, huses⟩
    obtain ⟨path, m, hm, hedges, hown⟩ := (hchildren child hchild).usesCoords_iff.mp huses
    obtain ⟨i, hi⟩ := exists_child?_of_mem_slots hchild
    refine ⟨i :: path, m, at?_cons_eq_some.mpr ⟨child, hi, hm⟩, by simp, ?_,
      Kind.usesCoords_iff.mp hown⟩
    rw [edges_cons hi, List.forall_mem_cons]
    exact ⟨by simpa using hexplicit, fun u hu => by simpa using hedges u hu⟩
  · rintro ⟨_ | ⟨i, path⟩, m, hm, hpath, hedges, hown⟩
    · exact absurd rfl hpath
    · obtain ⟨child, hi, hm⟩ := at?_cons_eq_some.mp hm
      have hchild := mem_slots_of_child? hi
      rw [edges_cons hi, List.forall_mem_cons] at hedges
      refine ⟨child, hchild, by simpa using hedges.1, ?_⟩
      exact (hchildren child hchild).usesCoords_iff.mpr
        ⟨path, m, hm, fun u hu => by simpa using hedges.2 u hu, Kind.usesCoords_iff.mpr hown⟩

end

end Node

namespace Pool

open Node

/-- No operation disturbs the flags of any tree. -/
theorem preserved_grown (allowed : Operation → Prop) : Preserved allowed Grown where
  create := fun _ => grows_grown.leaf
  call := by
    intro _ c id out last hoperands hrun
    exact (Effect.Crafted.of_run hrun).grows grows_grown hoperands out rfl
  attach := by
    intro _ root n m path child sampling hroot hchild hn hm
    cases path with
    | nil =>
      cases hn
      exact grows_grown.attached hroot hchild hm
    | cons i path =>
      obtain ⟨hfresh, rfl⟩ := withChild_eq_ok_iff.mp hm
      cases child with
      | some c =>
        -- A node below the root is not fresh, so nothing but an empty slot goes there.
        have hparent := hroot.2.isSome_parent_at? hn
        have hfresh := (hfresh c rfl).2
        simp only [isFresh, Bool.and_eq_true, Option.isNone_iff_eq_none] at hfresh
        rw [hfresh.1.1.1] at hparent
        cases hparent
      | none =>
        have hdata : (n.attached none sampling).data =
            { n.data with kind := (n.attached none sampling).kind } := rfl
        exact hroot.replaceAt hn hdata fun _ _ h => h.attached_none sampling
  clone := fun _ _ _ _ _ _ _ _ _ hrun => grows_grown.run_clone hrun
  recolor := by
    intro _ root n m path c hroot hn hm
    refine hroot.replaceAt hn ?_ fun _ _ h => h.recolor hm
    obtain ⟨_, _, _, rfl⟩ := recolor_eq_ok hm
    rfl

/-- However a tree came about, the flags of each of its nodes are exactly what the shape of the
tree says: what happens below the node, as far as it is seen from there, and which edges lie
between the root and the node. -/
theorem flags_exact {allowed : Operation → Prop} {pool : Pool} (hpool : Reachable allowed pool)
    {root n : Node} {path : Path} (hroot : root ∈ pool.trees) (hn : root.at? path = some n) :
    (n.flags.readsDestination ↔ n.Contains .destColor) ∧
    (n.flags.usesCoordsDirectly ↔ n.kind.effectClass = .linearGradient) ∧
    (n.flags.usesCoordsIndirectly ↔
      ∃ below m, n.at? below = some m ∧ below ≠ [] ∧
        (∀ u, u ∈ edges below n → ¬u.isExplicit) ∧ m.kind.effectClass = .linearGradient) ∧
    (n.flags.explicitCoords ↔ ∃ u, u ∈ edges path root ∧ u.isExplicit) ∧
    (n.flags.netPerspective ↔ ∃ u, u ∈ edges path root ∧ u.hasPerspective) ∧
    (n.capabilities.fragCoord ↔ n.Contains .deviceSpace) := by
  have hgrown := hpool.preserves (preserved_grown allowed) root hroot
  have hflagged := hgrown.2.at? hn
  refine ⟨hflagged.readsDestination_iff, hflagged.usesCoordsDirectly_iff,
    hflagged.usesCoordsIndirectly_iff, ?_, ?_, hflagged.fragCoord_iff⟩
  · rw [flags, (flagged_iff.mp hflagged).1.explicit, Bool.false_or, List.any_eq_true]
  · rw [flags, (flagged_iff.mp hflagged).1.perspective, Bool.false_or, List.any_eq_true]

/-- A gradient, and the same sampled at the position of the fragment. -/
def gradient : Node := leaf ⟨0⟩ (.linearGradient ⟨0, 0⟩ ⟨1, 0⟩ .white .white) ⟨true, false⟩

def sampledGradient : Node := unary ⟨1⟩ .deviceSpace ⟨true, false⟩ (some gradient) .explicit

/-- The sampled gradient is made by two calls of public constructors. -/
theorem reachable_sampledGradient : Reachable (fun _ => True) ⟨[sampledGradient], ⟨2⟩⟩ := by
  have hgradient : Step .call empty ⟨[gradient], ⟨1⟩⟩ :=
    @Step.call [] [] _ _ (.source (.linearGradient ⟨0, 0⟩ ⟨1, 0⟩ .white .white)) (some gradient)
      (.refl _) rfl
  have hsampled : Step .call ⟨[gradient], ⟨1⟩⟩ ⟨[sampledGradient], ⟨2⟩⟩ :=
    @Step.call [gradient] [] _ _ (.modify .deviceSpace (some gradient)) (some sampledGradient)
      (.refl _) rfl
  exact .step (.step .empty trivial hgradient) trivial hsampled

/-- The gradient knows that it is sampled explicitly. -/
theorem flags_exact_sampledGradient :
    ∃ n, sampledGradient.at? [0] = some n ∧
      (n.flags.explicitCoords ↔ ∃ u, u ∈ edges [0] sampledGradient ∧ u.isExplicit) :=
  ⟨_, rfl, (flags_exact reachable_sampledGradient (by simp) rfl).2.2.2.1⟩

end Pool

end PixelEffect
