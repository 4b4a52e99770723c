import PixelEffect.Proofs.Key.Generic
import PixelEffect.Proofs.Node.Alike
import PixelEffect.Proofs.Pool.Basic

namespace PixelEffect

namespace Node

theorem child?_generic (n : Node) (i : Nat) :
    n.generic.child? i =
      (n.child? i).map fun child => child.generic.resampled child.sampling := by
  obtain ⟨data, slots⟩ := n
  have hslots : (mk data slots).generic.slots = genericSlots slots := rfl
  rw [child?, hslots, genericSlots_eq_map, join_getElem?_map]
  rfl

/-- The edges below a node do not depend on how the node itself is sampled. -/
theorem edges_resampled (sampling : Sampling) (path : Path) (n : Node) :
    edges path (n.resampled sampling) = edges path n := by
  cases n
  cases path <;> rfl

/-- The generic form of a tree is sampled like the tree. -/
theorem edges_generic (path : Path) (n : Node) : edges path n.generic = edges path n := by
  induction path generalizing n with
  | nil => rfl
  | cons i path ih =>
    rw [edges, edges, child?_generic]
    cases n.child? i with
    | none => rfl
    | some child =>
      simp only [Option.map_some, sampling_resampled, edges_resampled, ih]

/-- Trees that are alike have equally many slots everywhere. -/
theorem CountsAgree.of_bare {a b : Node} (h : a.bare = b.bare) : a.CountsAgree b := by
  intro path n m hn hm _
  have hnodes := at?_of_bare h path
  rw [hn, hm] at hnodes
  exact length_slots_of_bare (Option.some.inj hnodes)

/-- Alike trees that are sampled alike have the same generic form. -/
theorem generic_eq_of_bare {a b : Node} (hbare : a.bare = b.bare)
    (hedges : ∀ path, edges path a = edges path b) : a.generic = b.generic := by
  induction a generalizing b with
  | mk data slots ih =>
    obtain ⟨other, others⟩ := b
    obtain ⟨hkind, hdirect, hslots⟩ := bare_eq_iff.mp hbare
    simp only [kind, flags, Node.data, Node.slots] at hkind hdirect hslots
    simp only [generic, hkind, hdirect, genericSlots_eq_map]
    refine congrArg _ (map_slots_of_bare hslots fun i child child' hchild hchild' hbare => ?_)
    have hi : (mk data slots).child? i = some child := Option.join_eq_some_iff.mpr hchild
    have hi' : (mk other others).child? i = some child' := Option.join_eq_some_iff.mpr hchild'
    have hbelow : ∀ path,
        child.sampling :: edges path child = child'.sampling :: edges path child' := by
      intro path
      have hpath := hedges (i :: path)
      rw [edges_cons hi, edges_cons hi'] at hpath
      exact hpath
    rw [(List.cons_eq_cons.mp (hbelow [])).1]
    congr 1
    exact ih child (List.mem_of_getElem? hchild) hbare fun path =>
      (List.cons_eq_cons.mp (hbelow path)).2

/-- Structurally equal trees have the same key exactly if their children are sampled alike wherever
they stand. -/
theorem key_eq_iff_edges_eq {a b : Node} (h : a.alike b) :
    ProgramKey.ofNode a = ProgramKey.ofNode b ↔ ∀ path, edges path a = edges path b := by
  have hbare := alike_iff.mp h
  rw [ProgramKey.ofNode, ProgramKey.ofNode, ProgramKey.mk.injEq]
  constructor
  · intro hkey path
    have hgeneric := (generic_eq_of_words (s := []) (t := []) (.of_bare hbare) (by rw [hkey])).1
    rw [← edges_generic, hgeneric, edges_generic]
  · intro hedges
    rw [← keyWords_generic a, generic_eq_of_bare hbare hedges, keyWords_generic]

end Node

namespace Pool

open Node

/-- A clamped white, sampled in one way or another. -/
def clampedWhite (sampling : Sampling) : Node :=
  unary ⟨0⟩ (.clamp false) .empty (some (leaf ⟨1⟩ (.color .white) ⟨true, true⟩)) sampling

/-- The clamped white is put together by creating two nodes and attaching one of them. -/
theorem reachable_clampedWhite (sampling : Sampling) :
    Reachable (· ∈ Operation.assembling) ⟨[clampedWhite sampling], ⟨2⟩⟩ := by
  have hclamp : Step .create empty ⟨[leaf ⟨0⟩ (.clamp false) .empty], ⟨1⟩⟩ := .create _ _
  have hcolor : Step .call ⟨[leaf ⟨0⟩ (.clamp false) .empty], ⟨1⟩⟩
      ⟨[leaf ⟨1⟩ (.color .white) ⟨true, true⟩, leaf ⟨0⟩ (.clamp false) .empty], ⟨2⟩⟩ :=
    @Step.call _ _ _ _ (.source (.color .white)) (some _) (.refl _) rfl
  have hattach : Step .attach
      ⟨[leaf ⟨1⟩ (.color .white) ⟨true, true⟩, leaf ⟨0⟩ (.clamp false) .empty], ⟨2⟩⟩
      ⟨[clampedWhite sampling], ⟨2⟩⟩ :=
    @Step.attach _ [] _ (leaf ⟨0⟩ (.clamp false) .empty) _ _
      (some (leaf ⟨1⟩ (.color .white) ⟨true, true⟩)) sampling [] (.swap _ _ _) rfl rfl
  exact .step (.step (.step .empty (by decide) hclamp) (by decide) hcolor) (by decide) hattach

/-- A child that is sampled elsewhere makes another key. -/
theorem key_eq_iff_edges_eq_clampedWhite :
    (clampedWhite .passThrough).alike (clampedWhite .explicit) ∧
      edges [0] (clampedWhite .passThrough) ≠ edges [0] (clampedWhite .explicit) ∧
      ProgramKey.ofNode (clampedWhite .passThrough) ≠
        ProgramKey.ofNode (clampedWhite .explicit) := by
  have halike : (clampedWhite .passThrough).alike (clampedWhite .explicit) := by decide
  have hedges : edges [0] (clampedWhite .passThrough) ≠ edges [0] (clampedWhite .explicit) := by
    decide
  exact ⟨halike, hedges, fun hkey => hedges ((key_eq_iff_edges_eq halike).mp hkey [0])⟩

/-- Structural equality does not see how a child is sampled, and the key does. -/
theorem equal_trees_with_different_keys :
    ¬∀ (pool pool' : Pool) (a b : Node), Reachable (· ∈ Operation.assembling) pool →
      Reachable (· ∈ Operation.assembling) pool' → a ∈ pool.trees → b ∈ pool'.trees → a.alike b →
      ProgramKey.ofNode a = ProgramKey.ofNode b := by
  intro h
  have hkey := h _ _ _ _ (reachable_clampedWhite .passThrough) (reachable_clampedWhite .explicit)
    (List.mem_singleton.mpr rfl) (List.mem_singleton.mpr rfl) (by decide)
  exact absurd hkey (by decide)

end Pool

end PixelEffect
