import PixelEffect.Proofs.Node.Postorder
import PixelEffect.Proofs.Shader.Values

namespace PixelEffect.Shader

namespace Entry

/-- What is known about a node suffices to write an effect to it. -/
def Takes (entry : Entry) (kind : Kind) : Prop :=
  entry.function.isSome ∧ kind.uniforms.length ≤ entry.uniforms.length

/-- The values of an effect with the names that are known for them. -/
def assignments (entry : Entry) (kind : Kind) : List (UniformName × List Single) :=
  entry.uniforms.zip kind.uniformValues

end Entry

namespace Outline

open Node

mutual

/-- The values of a tree with the names that the outline has for them, in the order in which they
are written. -/
def assignments : Outline → Node → List (UniformName × List Single)
  | mk entry slots, n =>
    assignmentsOfSlots slots n.slots ++ entry.assignments n.kind

def assignmentsOfSlots : List (Option Outline) → List (Option Node) →
    List (UniformName × List Single)
  | some o :: slots, some child :: children =>
    assignments o child ++ assignmentsOfSlots slots children
  | _ :: slots, _ :: children => assignmentsOfSlots slots children
  | _, _ => []

end

/-- Every node of the tree can be written to its place in the outline. -/
def Takes (o : Outline) (n : Node) : Prop :=
  ∀ path p m, o.at? path = some p → n.at? path = some m → p.entry.Takes m.kind

/-- The trees in the slots can be written to the outlines in theirs. -/
def TakesSlots (outlines : List (Option Outline)) (slots : List (Option Node)) : Prop :=
  ∀ (i : Nat) o child, outlines[i]?.join = some o → slots[i]?.join = some child → o.Takes child

/-- An outline takes the values of a tree if its entries have enough uniforms. -/
theorem takes_iff {entry : Entry} {outlines : List (Option Outline)} {n : Node} :
    (mk entry outlines).Takes n ↔ entry.Takes n.kind ∧ TakesSlots outlines n.slots := by
  constructor
  · intro h
    refine ⟨h [] _ n rfl rfl, fun i o child ho hchild path p m hp hm => ?_⟩
    refine h (i :: path) p m ?_ (at?_cons_eq_some.mpr ⟨child, hchild, hm⟩)
    rw [at?, slots, ho]
    exact hp
  · rintro ⟨hroot, hslots⟩ path p m hp hm
    cases path with
    | nil =>
      cases hp
      cases hm
      exact hroot
    | cons i path =>
      obtain ⟨o, ho, hp⟩ := Option.bind_eq_some_iff.mp hp
      obtain ⟨child, hchild, hm⟩ := at?_cons_eq_some.mp hm
      exact hslots i o child ho hchild path p m hp hm

theorem takesSlots_cons {o : Option Outline} {slot : Option Node} {outlines : List (Option Outline)}
    {slots : List (Option Node)} : TakesSlots (o :: outlines) (slot :: slots) ↔
      (∀ p child, o = some p → slot = some child → p.Takes child) ∧ TakesSlots outlines slots := by
  constructor
  · intro h
    exact ⟨h 0, fun i => h (i + 1)⟩
  · rintro ⟨hfirst, hrest⟩ i
    cases i with
    | zero => exact hfirst
    | succ i => exact hrest i

/-- Values are written under the names in order, if there are enough names. -/
theorem writeValues_eq_ok_iff {node : String} {i : Nat} {names : List UniformName}
    {values : List (List Single)} {data data' : UniformValues} :
    writeValues node i names values data = (data', .ok ()) ↔
      values.length ≤ names.length ∧ data' = data.setAll (names.zip values) := by
  induction values generalizing names i data with
  | nil => simp [writeValues, UniformValues.setAll, eq_comm]
  | cons found values ih =>
    cases names with
    | nil => simp [writeValues]
    | cons name names =>
      rw [writeValues, ih, List.length_cons, List.length_cons, Nat.succ_le_succ_iff]
      rfl

/-- Children are written one after the other, each to its own outline. -/
theorem writeSlots_of_fits {slots : List (Option Node)}
    (hwrite : ∀ child, some child ∈ slots → ∀ o : Outline, o.Fits child → ∀ data data',
      write o child data = (data', .ok ()) ↔
        o.Takes child ∧ data' = data.setAll (o.assignments child))
    {outlines : List (Option Outline)} (hfits : FitsSlots outlines slots)
    (data data' : UniformValues) : writeSlots outlines slots data = (data', .ok ()) ↔
      TakesSlots outlines slots ∧ data' = data.setAll (assignmentsOfSlots outlines slots) := by
  induction slots generalizing outlines data with
  | nil =>
    obtain rfl := fitsSlots_nil.mp hfits
    simp [writeSlots, assignmentsOfSlots, TakesSlots, UniformValues.setAll, eq_comm]
  | cons slot slots ih =>
    have hwriteRest := fun child hchild => hwrite child (List.mem_cons_of_mem _ hchild)
    cases slot with
    | none =>
      obtain ⟨outlines, rfl, hrest⟩ := fitsSlots_cons_none.mp hfits
      rw [takesSlots_cons]
      simp [writeSlots, assignmentsOfSlots, ih hwriteRest hrest]
    | some child =>
      obtain ⟨o, outlines, rfl, hchild, hrest⟩ := fitsSlots_cons_some.mp hfits
      have hfirst := hwrite child List.mem_cons_self o hchild data
      rw [takesSlots_cons, assignmentsOfSlots, UniformValues.setAll_append]
      constructor
      · intro h
        rw [writeSlots] at h
        split at h
        · cases h
        · rename_i hrun
          obtain ⟨htakes, rfl⟩ := (hfirst _).mp hrun
          obtain ⟨hslots, rfl⟩ := (ih hwriteRest hrest _).mp h
          refine ⟨⟨fun p m hp hm => ?_, hslots⟩, rfl⟩
          cases hp
          cases hm
          exact htakes
      · rintro ⟨⟨htakes, hslots⟩, rfl⟩
        have hrun := (hfirst _).mpr ⟨htakes o child rfl rfl, rfl⟩
        simp only [writeSlots, hrun]
        exact (ih hwriteRest hrest _).mpr ⟨hslots, rfl⟩

/-- Writing to an outline that fits takes enough uniforms and nothing else. -/
theorem write_of_fits {o : Outline} {n : Node} (h : o.Fits n) (data data' : UniformValues) :
    write o n data = (data', .ok ()) ↔ o.Takes n ∧ data' = data.setAll (o.assignments n) := by
  induction n generalizing o data data' with
  | mk nodeData slots ih =>
    obtain ⟨entry, outlines⟩ := o
    obtain ⟨hclass, hslots⟩ := fits_iff.mp h
    have hcheck : (do
        checkFits entry outlines.length (.mk nodeData slots)
        checkPresence (Node.mk nodeData slots).name 0 outlines slots) = Except.ok () :=
      Except.bind_eq_ok.mpr ⟨(), checkFits_eq_ok.mpr ⟨hclass, hslots.length_eq⟩,
        checkPresence_of_fits hslots _ _⟩
    have hchildren := writeSlots_of_fits (fun child hchild _ hfits => ih child hchild hfits) hslots
    rw [takes_iff, assignments, UniformValues.setAll_append, Entry.Takes,
      ← Kind.length_uniformValues]
    constructor
    · intro hrun
      simp only [write, Node.slots, hcheck] at hrun
      split at hrun
      · cases hrun
      rename_i hfunction
      split at hrun
      · cases hrun
      rename_i hwritten
      obtain ⟨htakes, rfl⟩ := (hchildren _ _).mp hwritten
      obtain ⟨hlength, rfl⟩ := writeValues_eq_ok_iff.mp hrun
      exact ⟨⟨⟨Option.isSome_iff_ne_none.mpr (by simpa using hfunction), hlength⟩, htakes⟩, rfl⟩
    · rintro ⟨⟨⟨hfunction, hlength⟩, htakes⟩, rfl⟩
      have hnone : entry.function.isNone = false := by
        simpa using hfunction
      simp only [write, hnone, Bool.false_eq_true, if_false, Node.slots, hcheck,
        (hchildren _ _).mpr ⟨htakes, rfl⟩]
      exact writeValues_eq_ok_iff.mpr ⟨hlength, rfl⟩

/-- Writing succeeds exactly if the tree fits and every node can be written. Each value goes to the
name that the outline has for it, a later one in the place of an earlier one with the same name. -/
theorem write_eq_ok_iff {o : Outline} {n : Node} {data data' : UniformValues} :
    write o n data = (data', .ok ()) ↔
      o.Fits n ∧ o.Takes n ∧ data' = data.setAll (o.assignments n) := by
  constructor
  · intro h
    have hfits := fits_of_write h
    exact ⟨hfits, (write_of_fits hfits _ _).mp h⟩
  · rintro ⟨hfits, h⟩
    exact (write_of_fits hfits _ _).mpr h

/-- The values of the node at the end of a path, with the names that the outline has there. -/
def assignmentsAt (o : Outline) (n : Node) (path : Path) : List (UniformName × List Single) :=
  match (o.at? path).map entry, n.at? path with
  | some known, some m => known.assignments m.kind
  | _, _ => []

/-- A place without uniforms in the tree has no values. -/
theorem assignmentsAt_eq_nil {n : Node} {path : Path}
    (h : ∀ m, n.at? path = some m → m.kind.uniforms = []) (o : Outline) :
    o.assignmentsAt n path = [] := by
  unfold assignmentsAt
  split
  · rename_i m _ hm
    have hvalues : m.kind.uniformValues = [] := by
      rw [← List.length_eq_zero_iff, Kind.length_uniformValues, h m hm, List.length_nil]
    rw [Entry.assignments, hvalues, List.zip_nil_right]
  · rfl

/-- What the slots assign is listed by their paths in post-order. -/
theorem assignmentsOfSlots_eq_paths {slots : List (Option Node)} {outlines : List (Option Outline)}
    (hfits : FitsSlots outlines slots)
    (hslots : ∀ child, some child ∈ slots → ∀ o : Outline, o.Fits child →
      o.assignments child = child.postPaths.flatMap (o.assignmentsAt child))
    {i : Nat} {look : Path → List (UniformName × List Single)}
    (hlook : ∀ j o child, outlines[j]?.join = some o → slots[j]?.join = some child →
      ∀ path, look ((i + j) :: path) = o.assignmentsAt child path) :
    assignmentsOfSlots outlines slots = (postPathsFrom i slots).flatMap look := by
  induction slots generalizing outlines i with
  | nil =>
    obtain rfl := fitsSlots_nil.mp hfits
    simp [assignmentsOfSlots, postPathsFrom]
  | cons slot slots ih =>
    have hrestPaths : ∀ {o : Option Outline} {rest : List (Option Outline)}, outlines = o :: rest →
        FitsSlots rest slots →
        assignmentsOfSlots rest slots = (postPathsFrom (i + 1) slots).flatMap look := by
      rintro o rest rfl hrest
      refine ih hrest (fun child hchild => hslots child (List.mem_cons_of_mem _ hchild))
        fun j p child hp hchild path => ?_
      rw [Nat.add_assoc, Nat.add_comm 1, hlook (j + 1) p child hp hchild]
    cases slot with
    | none =>
      obtain ⟨outlines, rfl, hrest⟩ := fitsSlots_cons_none.mp hfits
      exact hrestPaths rfl hrest
    | some child =>
      obtain ⟨o, outlines, rfl, hchild, hrest⟩ := fitsSlots_cons_some.mp hfits
      have hbelow : ∀ path, look (i :: path) = o.assignmentsAt child path :=
        hlook 0 o child rfl rfl
      rw [assignmentsOfSlots, postPathsFrom, List.flatMap_append, List.flatMap_map,
        hslots child List.mem_cons_self o hchild, hrestPaths rfl hrest]
      simp only [hbelow]

/-- The values come node by node, in post-order. -/
theorem assignments_eq_paths {o : Outline} {n : Node} (h : o.Fits n) :
    o.assignments n = n.postPaths.flatMap (o.assignmentsAt n) := by
  induction n generalizing o with
  | mk data slots ih =>
    obtain ⟨entry, outlines⟩ := o
    have hslots : assignmentsOfSlots outlines slots =
        (postPathsFrom 0 slots).flatMap ((mk entry outlines).assignmentsAt (.mk data slots)) := by
      refine assignmentsOfSlots_eq_paths (fits_iff.mp h).2 (fun child hchild _ => ih child hchild)
        fun j o child ho hchild path => ?_
      rw [Nat.zero_add, assignmentsAt, at?, Outline.slots, ho, Node.at?, child?, hchild]
      rfl
    rw [assignments, postPaths, List.flatMap_append, ← hslots, List.flatMap_singleton]
    rfl

end Outline

end PixelEffect.Shader
