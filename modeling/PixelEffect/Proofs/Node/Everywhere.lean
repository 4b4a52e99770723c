import PixelEffect.Proofs.Node.Flags

namespace PixelEffect.Node

/-- Every node of the tree has the property. -/
def Everywhere (Q : NodeData → Prop) (n : Node) : Prop :=
  ∀ path m, n.at? path = some m → Q m.data

section

variable {Q : NodeData → Prop} {root n m : Node} {path : Path}

/-- A property holds everywhere if it holds of the root and everywhere in the slots. -/
theorem everywhere_iff :
    n.Everywhere Q ↔ Q n.data ∧ ∀ child, some child ∈ n.slots → child.Everywhere Q := by
  constructor
  · intro h
    refine ⟨h [] n rfl, fun child hchild path m hm => ?_⟩
    obtain ⟨i, hi⟩ := exists_child?_of_mem_slots hchild
    exact h (i :: path) m (at?_cons_eq_some.mpr ⟨child, hi, hm⟩)
  · rintro ⟨hdata, hchildren⟩ path m hm
    cases path with
    | nil =>
      cases hm
      exact hdata
    | cons i path =>
      obtain ⟨child, hchild, hm⟩ := at?_cons_eq_some.mp hm
      exact hchildren child (mem_slots_of_child? hchild) path m hm

/-- What holds everywhere holds everywhere in a part. -/
theorem Everywhere.at? (h : root.Everywhere Q) (hn : root.at? path = some n) : n.Everywhere Q := by
  intro below m hm
  refine h (path ++ below) m ?_
  rw [at?_append, hn]
  exact hm

/-- Another tree may come into the place of any node. -/
theorem Everywhere.replaceAt (h : root.Everywhere Q) (hm : m.Everywhere Q) :
    (Node.replaceAt m path root).Everywhere Q := by
  induction path generalizing root with
  | nil => exact hm
  | cons i path ih =>
    cases hchild : root.child? i with
    | none =>
      rw [Node.replaceAt, hchild]
      exact h
    | some child =>
      obtain ⟨hdata, hchildren⟩ := everywhere_iff.mp h
      have hnew := ih (hchildren child (mem_slots_of_child? hchild))
      rw [replaceAt_cons hchild]
      refine everywhere_iff.mpr ⟨hdata, fun c hc => ?_⟩
      rcases List.mem_or_eq_of_mem_set hc with hc | hc
      · exact hchildren c hc
      · cases hc
        exact hnew

end

/-- A node says that it reads coordinates itself exactly if its kind does. -/
def Declared (data : NodeData) : Prop := data.flags.usesCoordsDirectly = data.kind.usesCoords

theorem everywhere_declared_pushDown {n : Node} (h : n.Everywhere Declared) (flag : InheritedFlag) :
    (n.pushDown flag).Everywhere Declared := by
  induction n with
  | mk data slots ih =>
    obtain ⟨hdata, hchildren⟩ := everywhere_iff.mp h
    simp only [pushDown]
    split
    · exact h
    · rw [pushDownSlots_eq_map]
      refine everywhere_iff.mpr ⟨by cases flag <;> exact hdata, fun child' hchild' => ?_⟩
      obtain ⟨child, hchild, rfl⟩ := mem_map_slots.mp hchild'
      exact ih child hchild (hchildren child hchild)

theorem everywhere_declared_sampled {n : Node} (h : n.Everywhere Declared) (sampling : Sampling) :
    (n.sampled sampling).Everywhere Declared := by
  refine sampled_of_resampled (P := Everywhere Declared)
    (fun m flag hm => everywhere_declared_pushDown hm flag) ?_
  obtain ⟨data, slots⟩ := n
  obtain ⟨hdata, hchildren⟩ := everywhere_iff.mp h
  exact everywhere_iff.mpr ⟨hdata, hchildren⟩

/-- Nothing that a node learns from a child says that the node reads coordinates itself. -/
theorem grows_declared : Grows (Everywhere Declared) where
  leaf := fun _ _ _ => everywhere_iff.mpr ⟨rfl, fun _ h => by cases h⟩
  attached := by
    intro n m child sampling hn hchild h
    obtain ⟨_, rfl⟩ := withChild_eq_ok_iff.mp h
    obtain ⟨hdata, hchildren⟩ := everywhere_iff.mp hn
    refine everywhere_iff.mpr ⟨by cases child <;> exact hdata, fun c hc => ?_⟩
    obtain hc | ⟨c, rfl, rfl⟩ := mem_slots_attached.mp hc
    · exact hchildren c hc
    · have hsampled := everywhere_declared_sampled (hchild c rfl) sampling
      generalize c.sampled sampling = s at hsampled
      obtain ⟨data, slots⟩ := s
      obtain ⟨hdata, hchildren⟩ := everywhere_iff.mp hsampled
      exact everywhere_iff.mpr ⟨hdata, hchildren⟩

/-- Colors do not read coordinates, neither before nor after they are changed. -/
theorem everywhere_declared_recolor {n m : Node} {c : Color Single} (h : n.Everywhere Declared)
    (hm : n.recolor c = .ok m) : m.Everywhere Declared := by
  obtain ⟨current, hkind, _, rfl⟩ := recolor_eq_ok hm
  obtain ⟨hdata, hchildren⟩ := everywhere_iff.mp h
  rw [Declared, show n.data.kind = .color current from hkind] at hdata
  exact everywhere_iff.mpr ⟨hdata, hchildren⟩

end PixelEffect.Node
