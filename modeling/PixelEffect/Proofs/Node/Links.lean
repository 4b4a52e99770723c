import PixelEffect.Proofs.Node.Flags

namespace PixelEffect.Node

/-- What a node has from above. -/
structure Place where
  parent : Option NodeId
  sampling : Sampling
  explicitCoords : Bool
  netPerspective : Bool

/-- The place of a node that is not attached. -/
def Place.root : Place := ⟨none, .unsampled, false, false⟩

def place (n : Node) : Place :=
  ⟨n.parent, n.sampling, n.flags.explicitCoords, n.flags.netPerspective⟩

section

variable {root n m : Node} {path : Path}

@[simp] theorem place_leaf (id : NodeId) (kind : Kind) (optimizations : Optimizations) :
    (leaf id kind optimizations).place = .root := rfl

@[simp] theorem place_attached (n : Node) (child : Option Node) (sampling : Sampling) :
    (n.attached child sampling).place = n.place := by
  cases child <;> rfl

/-- A change at a node or below leaves the root in its place. -/
theorem place_replaceAt (hn : root.at? path = some n) (hm : m.place = n.place) :
    (replaceAt m path root).place = root.place := by
  cases path with
  | nil =>
    cases hn
    exact hm
  | cons i path =>
    obtain ⟨child, hchild, _⟩ := at?_cons_eq_some.mp hn
    rw [replaceAt_cons hchild]
    rfl

/-- A node stays where it is when it takes another color. -/
theorem place_recolor {c : Color Single} (hm : n.recolor c = .ok m) : m.place = n.place := by
  obtain ⟨_, _, _, rfl⟩ := recolor_eq_ok hm
  rfl

/-- A node that nobody has attached is fresh. -/
theorem isFresh_of_place (h : n.place = .root) : n.isFresh := by
  obtain ⟨hparent, hsampling, hexplicit, hperspective⟩ := Place.mk.inj h
  rw [isFresh, hparent, hsampling, hexplicit, hperspective]
  rfl

end

theorem grows_root : Grows (fun n => n.place = .root) where
  leaf := place_leaf
  attached := by
    intro n m child sampling hn _ h
    obtain ⟨_, rfl⟩ := withChild_eq_ok_iff.mp h
    rw [place_attached]
    exact hn

/-- Every node in a slot of the tree names the owner of the slot as its parent. -/
inductive Linked : Node → Prop
  | mk {data : NodeData} {slots : List (Option Node)}
      (hparents : ∀ child, some child ∈ slots → child.parent = some data.id)
      (hchildren : ∀ child, some child ∈ slots → Linked child) : Linked (mk data slots)

section

variable {root n m child : Node} {path : Path}

/-- The links of a tree are right if those to its root are and those in the slots are. -/
theorem linked_iff :
    n.Linked ↔ (∀ child, some child ∈ n.slots → child.parent = some n.id) ∧
      ∀ child, some child ∈ n.slots → child.Linked := by
  constructor
  · rintro ⟨hparents, hchildren⟩
    exact ⟨hparents, hchildren⟩
  · obtain ⟨data, slots⟩ := n
    rintro ⟨hparents, hchildren⟩
    exact ⟨hparents, hchildren⟩

/-- Of the data of a node the links below it depend on its identity alone. -/
theorem Linked.congr (h : n.Linked) (hid : m.id = n.id) (hslots : m.slots = n.slots) :
    m.Linked := by
  rw [linked_iff, hid, hslots]
  exact linked_iff.mp h

theorem Linked.pushDown (h : n.Linked) (flag : InheritedFlag) : (n.pushDown flag).Linked := by
  induction n with
  | mk data slots ih =>
    obtain ⟨hparents, hchildren⟩ := linked_iff.mp h
    rw [Node.pushDown]
    split
    · exact h
    · rw [pushDownSlots_eq_map]
      refine .mk (forall_mem_map_slots.mpr fun child hchild => ?_)
        (forall_mem_map_slots.mpr fun child hchild => ih child hchild (hchildren child hchild))
      rw [parent_pushDown]
      exact hparents child hchild

theorem Linked.sampled (h : n.Linked) (sampling : Sampling) : (n.sampled sampling).Linked := by
  refine sampled_of_resampled (fun m flag hm => hm.pushDown flag) ?_
  cases n
  exact h.congr rfl rfl

/-- The new child is linked by its parent, the others are where they were. -/
theorem Linked.attached {child : Option Node} (hn : n.Linked)
    (hchild : ∀ c, child = some c → c.Linked) (sampling : Sampling) :
    (n.attached child sampling).Linked := by
  have hid : (n.attached child sampling).id = n.id := by cases child <;> rfl
  obtain ⟨hparents, hchildren⟩ := linked_iff.mp hn
  rw [linked_iff, hid]
  constructor
  · intro c hc
    obtain hc | ⟨d, _, rfl⟩ := mem_slots_attached.mp hc
    · exact hparents c hc
    · cases d.sampled sampling
      rfl
  · intro c hc
    obtain hc | ⟨d, hd, rfl⟩ := mem_slots_attached.mp hc
    · exact hchildren c hc
    · have hsampled := (hchild d hd).sampled sampling
      generalize d.sampled sampling = s at hsampled ⊢
      cases s
      exact hsampled.congr rfl rfl

/-- Links are right while a tree grows. -/
theorem grows_linked : Grows Linked where
  leaf := fun _ _ _ => .mk (fun _ h => by cases h) (fun _ h => by cases h)
  attached := by
    intro n m child sampling hn hchild h
    obtain ⟨_, rfl⟩ := withChild_eq_ok_iff.mp h
    exact hn.attached hchild sampling

/-- The links in every part of a tree are right if those of the tree are. -/
theorem Linked.at? (h : root.Linked) (hn : root.at? path = some n) : n.Linked := by
  induction path generalizing root with
  | nil =>
    cases hn
    exact h
  | cons i path ih =>
    obtain ⟨child, hchild, hn⟩ := at?_cons_eq_some.mp hn
    exact ih ((linked_iff.mp h).2 child (mem_slots_of_child? hchild)) hn

/-- Whatever comes into the place of a node has to name the same parent. -/
theorem Linked.replaceAt (h : root.Linked) (hn : root.at? path = some n)
    (hm : m.Linked) (hplace : m.place = n.place) : (Node.replaceAt m path root).Linked := by
  induction path generalizing root with
  | nil => exact hm
  | cons i path ih =>
    obtain ⟨child, hchild, hn⟩ := at?_cons_eq_some.mp hn
    obtain ⟨hparents, hchildren⟩ := linked_iff.mp h
    have hmem := mem_slots_of_child? hchild
    have hparent : (Node.replaceAt m path child).parent = child.parent :=
      congrArg Place.parent (place_replaceAt hn hplace)
    have hslots : ∀ c, some c ∈ root.slots.set i (some (Node.replaceAt m path child)) →
        some c ∈ root.slots ∨ c = Node.replaceAt m path child := fun c hc =>
      (List.mem_or_eq_of_mem_set hc).imp_right Option.some.inj
    rw [replaceAt_cons hchild]
    refine .mk ?_ ?_
    · intro c hc
      obtain hc | rfl := hslots c hc
      · exact hparents c hc
      · rw [hparent]
        exact hparents child hmem
    · intro c hc
      obtain hc | rfl := hslots c hc
      · exact hchildren c hc
      · exact ih (hchildren child hmem) hn

end

end PixelEffect.Node
