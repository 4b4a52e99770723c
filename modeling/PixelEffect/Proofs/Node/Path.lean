import PixelEffect.Node.Edit
import PixelEffect.Proofs.Node.Recursion

namespace PixelEffect.Node

/-- How the nodes along a path are sampled, without the one that the path starts at. -/
def edges : Path → Node → List Sampling
  | [], _ => []
  | i :: path, n =>
    match n.child? i with
    | none => []
    | some child => child.sampling :: edges path child

/-- A node that hangs where it is sampled like this. -/
def resampled (sampling : Sampling) : Node → Node
  | mk data slots => mk { data with sampling } slots

@[simp] theorem sampling_resampled (sampling : Sampling) (n : Node) :
    (n.resampled sampling).sampling = sampling := by
  cases n
  rfl

/-- A path that goes on leads through a child. -/
theorem at?_cons_eq_some {n m : Node} {i : Nat} {path : Path} :
    at? (i :: path) n = some m ↔ ∃ child, n.child? i = some child ∧ at? path child = some m := by
  rw [at?, Option.bind_eq_some_iff]

/-- Going on from the end of a path. -/
theorem at?_append (path below : Path) (n : Node) :
    n.at? (path ++ below) = (n.at? path).bind (at? below) := by
  induction path generalizing n with
  | nil => rfl
  | cons i path ih =>
    rw [List.cons_append, at?, at?]
    cases n.child? i with
    | none => rfl
    | some child => exact ih child

/-- The first edge of a path is the one to the child. -/
theorem edges_cons {n child : Node} {i : Nat} (h : n.child? i = some child) (path : Path) :
    edges (i :: path) n = child.sampling :: edges path child := by
  rw [edges, h]

theorem mem_slots_of_child? {n child : Node} {i : Nat} (h : n.child? i = some child) :
    some child ∈ n.slots :=
  List.mem_of_getElem? (Option.join_eq_some_iff.mp h)

/-- Every child stands in some slot. -/
theorem exists_child?_of_mem_slots {n child : Node} (h : some child ∈ n.slots) :
    ∃ i, n.child? i = some child := by
  obtain ⟨i, hi⟩ := List.mem_iff_getElem?.mp h
  exact ⟨i, Option.join_eq_some_iff.mpr hi⟩

/-- A path from a node ends there or goes on from one of the children. -/
theorem exists_path_iff {n : Node} {Q : List Sampling → Node → Prop} :
    (∃ path m, at? path n = some m ∧ Q (edges path n) m) ↔
      Q [] n ∨ ∃ child, some child ∈ n.slots ∧
        ∃ path m, at? path child = some m ∧ Q (child.sampling :: edges path child) m := by
  constructor
  · rintro ⟨path, m, hm, hQ⟩
    cases path with
    | nil =>
      cases hm
      exact .inl hQ
    | cons i path =>
      obtain ⟨child, hchild, hm⟩ := at?_cons_eq_some.mp hm
      rw [edges_cons hchild] at hQ
      exact .inr ⟨child, mem_slots_of_child? hchild, path, m, hm, hQ⟩
  · rintro (hQ | ⟨child, hchild, path, m, hm, hQ⟩)
    · exact ⟨[], n, rfl, hQ⟩
    · obtain ⟨i, hi⟩ := exists_child?_of_mem_slots hchild
      refine ⟨i :: path, m, at?_cons_eq_some.mpr ⟨child, hi, hm⟩, ?_⟩
      rw [edges_cons hi]
      exact hQ

/-- The node itself or a node below it is of the class. -/
def Contains (n : Node) (c : EffectClass) : Prop :=
  ∃ path m, n.at? path = some m ∧ m.kind.effectClass = c

/-- An effect is found in a tree at the root or in one of the slots. -/
theorem contains_iff {n : Node} {c : EffectClass} :
    n.Contains c ↔
      n.kind.effectClass = c ∨ ∃ child, some child ∈ n.slots ∧ child.Contains c :=
  exists_path_iff (Q := fun _ m => m.kind.effectClass = c)

/-- Replacing a node below the root replaces one child. -/
theorem replaceAt_cons {n child new : Node} {i : Nat} (h : n.child? i = some child)
    (path : Path) :
    replaceAt new (i :: path) n = mk n.data (n.slots.set i (some (replaceAt new path child))) := by
  rw [replaceAt, h]

/-- What looks the same in a child and in its replacement looks the same in all slots. -/
theorem map_set_slots {β : Type} {f : Node → β} {n child new : Node} {i : Nat}
    (hchild : n.child? i = some child) (h : f new = f child) :
    (n.slots.set i (some new)).map (Option.map f) = n.slots.map (Option.map f) := by
  obtain ⟨hi, hget⟩ := List.getElem?_eq_some_iff.mp (Option.join_eq_some_iff.mp hchild)
  have hself : Option.map f n.slots[i] = some (f new) := by
    rw [hget, h]
    rfl
  have hset := @List.set_getElem_self _ (n.slots.map (Option.map f)) i (by simpa using hi)
  rw [List.getElem_map, hself] at hset
  rw [List.map_set, Option.map_some, hset]

end PixelEffect.Node
