import PixelEffect.Node.Traversal
import PixelEffect.Proofs.Node.Attach
import PixelEffect.Proofs.Node.Path

namespace PixelEffect.Node

/-- The identities of the nodes of a tree, in pre-order. -/
def ids (n : Node) : List NodeId := n.preorder.map id

/-- The identities of the nodes of several trees. -/
def idsOf (trees : List Node) : List NodeId := trees.flatMap ids

section

variable {trees others : List Node} {n m : Node}

@[simp] theorem idsOf_nil : idsOf [] = [] := rfl

@[simp] theorem idsOf_cons : idsOf (n :: trees) = n.ids ++ idsOf trees := rfl

@[simp] theorem idsOf_append : idsOf (trees ++ others) = idsOf trees ++ idsOf others :=
  List.flatMap_append

/-- What keeps the identities of every tree keeps those of all trees. -/
theorem idsOf_map {f : Node → Node} (h : ∀ n, n ∈ trees → (f n).ids = n.ids) :
    idsOf (trees.map f) = idsOf trees := by
  rw [idsOf, List.flatMap_map, List.flatMap_def, List.map_congr_left h]
  rfl

theorem mem_idsOf {id : NodeId} : id ∈ idsOf trees ↔ ∃ n, n ∈ trees ∧ id ∈ n.ids :=
  List.mem_flatMap

theorem preorderSlots_eq (slots : List (Option Node)) :
    preorderSlots slots = (slots.filterMap fun slot => slot).flatMap preorder := by
  induction slots with
  | nil => rfl
  | cons slot rest ih => cases slot <;> simp [preorderSlots, ih]

/-- A node comes before its children. -/
theorem ids_eq (n : Node) : n.ids = n.id :: idsOf n.children := by
  obtain ⟨data, slots⟩ := n
  rw [ids, preorder, preorderSlots_eq, List.map_cons, List.map_flatMap]
  rfl

theorem children_map {f : Node → Node} (data : NodeData) (slots : List (Option Node)) :
    (mk data (slots.map (Option.map f))).children = (mk data slots).children.map f := by
  simp only [children, Node.slots, List.filterMap_map, List.map_filterMap]
  rfl

/-- The children of a node are what is in its slots. -/
theorem mem_children {n child : Node} : child ∈ n.children ↔ some child ∈ n.slots := by
  simp [children]

@[simp] theorem ids_leaf (id : NodeId) (kind : Kind) (optimizations : Optimizations) :
    (leaf id kind optimizations).ids = [id] := rfl

@[simp] theorem ids_pushDown (flag : InheritedFlag) (n : Node) : (n.pushDown flag).ids = n.ids := by
  induction n with
  | mk data slots ih =>
    rw [pushDown]
    split
    · rfl
    · rw [ids_eq, ids_eq (mk data slots), pushDownSlots_eq_map, children_map]
      congr 1
      exact idsOf_map fun child hchild => ih child (mem_children.mp hchild)

@[simp] theorem ids_sampled (sampling : Sampling) (n : Node) :
    (n.sampled sampling).ids = n.ids := by
  obtain ⟨data, slots⟩ := n
  have hsampled : (mk { data with sampling } slots).ids = (mk data slots).ids := by
    rw [ids_eq, ids_eq (mk data slots)]
    rfl
  simp only [sampled]
  split <;> split <;> simp only [ids_pushDown, hsampled]

@[simp] theorem ids_withParent (parent : NodeId) (n : Node) :
    (n.withParent parent).ids = n.ids := by
  obtain ⟨data, slots⟩ := n
  rw [withParent, ids_eq, ids_eq (mk data slots)]
  rfl

@[simp] theorem ids_attached (n : Node) (child : Option Node) (sampling : Sampling) :
    (n.attached child sampling).ids = n.ids ++ idsOf child.toList := by
  rw [ids_eq, ids_eq n, children, slots_attached, List.filterMap_append, idsOf_append]
  cases child with
  | none => rfl
  | some child =>
    simp only [List.filterMap_cons, List.filterMap_nil, Option.map_some, idsOf_cons, idsOf_nil,
      Option.toList_some, ids_withParent, ids_sampled]
    rfl

/-- What is added to the identities of a node is added to those of the tree. -/
theorem count_ids_replaceAt {root n m : Node} {path : Path} (hn : root.at? path = some n)
    {x : NodeId} {k : Nat} (hm : m.ids.count x = n.ids.count x + k) :
    (replaceAt m path root).ids.count x = root.ids.count x + k := by
  induction path generalizing root with
  | nil =>
    cases hn
    exact hm
  | cons i path ih =>
    obtain ⟨child, hchild, hn⟩ := at?_cons_eq_some.mp hn
    have hnew := ih hn
    rw [replaceAt_cons hchild]
    generalize replaceAt m path child = new at hnew
    obtain ⟨data, slots⟩ := root
    have hslot : slots[i]? = some (some child) := Option.join_eq_some_iff.mp hchild
    obtain ⟨hi, hget⟩ := List.getElem?_eq_some_iff.mp hslot
    -- The slots before and behind the child stay as they are.
    have hslots : slots = slots.take i ++ some child :: slots.drop (i + 1) := by
      rw [← hget, List.getElem_cons_drop, List.take_append_drop]
    have hset : slots.set i (some new) = slots.take i ++ some new :: slots.drop (i + 1) := by
      rw [List.set_eq_take_append_cons_drop, if_pos hi]
    have hcount : ∀ (before behind : List (Option Node)) (c : Node),
        (mk data (before ++ some c :: behind)).ids.count x =
          (mk data (before ++ behind)).ids.count x + c.ids.count x := by
      intro before behind c
      have hids : ∀ slots, (mk data slots).ids =
          data.id :: idsOf (slots.filterMap fun slot => slot) := fun slots => ids_eq _
      simp only [hids, List.filterMap_append, List.filterMap_cons, idsOf_append, idsOf_cons,
        List.count_cons, List.count_append]
      omega
    have hroot := hcount (slots.take i) (slots.drop (i + 1)) child
    rw [← hslots] at hroot
    rw [Node.data, Node.slots, hset, hcount, hroot, hnew, Nat.add_assoc]

end

end PixelEffect.Node
