import PixelEffect.Proofs.Node.Identities

namespace PixelEffect.Node

mutual

/-- The paths to the nodes of a tree, in pre-order. -/
def paths : Node → List Path
  | mk _ slots => [] :: pathsFrom 0 slots

def pathsFrom (i : Nat) : List (Option Node) → List Path
  | [] => []
  | none :: rest => pathsFrom (i + 1) rest
  | some child :: rest => child.paths.map (i :: ·) ++ pathsFrom (i + 1) rest

end

section

variable {n : Node} {path : Path} {slots : List (Option Node)} {i : Nat}

theorem paths_eq (n : Node) : n.paths = [] :: pathsFrom 0 n.slots := by
  cases n
  rw [paths, slots]

/-- A path into slots that are numbered from `i` on goes to one of them and on in the child
there. -/
theorem mem_pathsFrom : path ∈ pathsFrom i slots ↔
    ∃ j child below, slots[j]? = some (some child) ∧ below ∈ child.paths ∧
      path = (i + j) :: below := by
  induction slots generalizing i with
  | nil => simp [pathsFrom]
  | cons slot rest ih =>
    have hrest : path ∈ pathsFrom (i + 1) rest ↔ ∃ j child below,
        (slot :: rest)[j + 1]? = some (some child) ∧ below ∈ child.paths ∧
          path = (i + (j + 1)) :: below := by
      simp only [ih, List.getElem?_cons_succ, Nat.add_assoc, Nat.add_comm 1]
    cases slot with
    | none =>
      rw [pathsFrom, hrest]
      constructor
      · rintro ⟨j, h⟩
        exact ⟨j + 1, h⟩
      · rintro ⟨_ | j, child, below, hchild, h⟩
        · cases hchild
        · exact ⟨j, child, below, hchild, h⟩
    | some child =>
      rw [pathsFrom, List.mem_append, List.mem_map, hrest]
      constructor
      · rintro (⟨below, hbelow, rfl⟩ | ⟨j, h⟩)
        · exact ⟨0, child, below, rfl, hbelow, rfl⟩
        · exact ⟨j + 1, h⟩
      · rintro ⟨_ | j, other, below, hother, hbelow, rfl⟩
        · cases hother
          exact .inl ⟨below, hbelow, rfl⟩
        · exact .inr ⟨j, other, below, hother, hbelow, rfl⟩

/-- Every node of a tree is at one of its paths, and at each of them there is one. -/
theorem mem_paths : path ∈ n.paths ↔ (n.at? path).isSome := by
  induction n generalizing path with
  | mk data slots ih =>
    rw [paths_eq, List.mem_cons, mem_pathsFrom]
    cases path with
    | nil => simp [at?]
    | cons i path =>
      simp only [Nat.zero_add, List.cons.injEq, reduceCtorEq, false_or, Option.isSome_iff_exists,
        at?_cons_eq_some]
      constructor
      · rintro ⟨_, child, _, hslot, hpath, rfl, rfl⟩
        obtain ⟨m, hm⟩ := Option.isSome_iff_exists.mp
          ((ih child (List.mem_of_getElem? hslot)).mp hpath)
        exact ⟨m, child, Option.join_eq_some_iff.mpr hslot, hm⟩
      · rintro ⟨m, child, hchild, hm⟩
        have hpath := (ih child (mem_slots_of_child? hchild)).mpr
          (Option.isSome_iff_exists.mpr ⟨m, hm⟩)
        exact ⟨i, child, path, Option.join_eq_some_iff.mp hchild, hpath, rfl, rfl⟩

/-- A path into a slot further left comes first. -/
theorem pairwise_pathsFrom
    (hslots : ∀ child, some child ∈ slots → child.paths.Pairwise (· < ·)) :
    (pathsFrom i slots).Pairwise (· < ·) := by
  induction slots generalizing i with
  | nil => exact .nil
  | cons slot rest ih =>
    have hrest := ih (i := i + 1) fun child hchild => hslots child (List.mem_cons_of_mem _ hchild)
    cases slot with
    | none => exact hrest
    | some child =>
      rw [pathsFrom, List.pairwise_append]
      refine ⟨?_, hrest, ?_⟩
      · refine (hslots child List.mem_cons_self).map _ fun path path' h => ?_
        exact List.cons_lt_cons_iff.mpr (.inr ⟨rfl, h⟩)
      · intro path hpath path' hpath'
        obtain ⟨below, _, rfl⟩ := List.mem_map.mp hpath
        obtain ⟨j, _, below', _, _, rfl⟩ := mem_pathsFrom.mp hpath'
        exact List.cons_lt_cons_iff.mpr (.inl (by omega))

/-- The paths of a tree are in lexicographic order, and none of them is there twice. -/
theorem pairwise_paths (n : Node) : n.paths.Pairwise (· < ·) := by
  induction n with
  | mk data slots ih =>
    rw [paths_eq, List.pairwise_cons]
    refine ⟨fun path hpath => ?_, pairwise_pathsFrom ih⟩
    obtain ⟨j, _, below, _, _, rfl⟩ := mem_pathsFrom.mp hpath
    exact List.nil_lt_cons _ _

/-- The nodes in pre-order are those at the paths in order. -/
theorem preorderSlots_eq_paths {look : Path → Option Node}
    (hlook : ∀ j child, slots[j]? = some (some child) → ∀ below,
      look ((i + j) :: below) = child.at? below)
    (hslots : ∀ child, some child ∈ slots →
      child.preorder.map some = child.paths.map (child.at? ·)) :
    (preorderSlots slots).map some = (pathsFrom i slots).map look := by
  induction slots generalizing i with
  | nil => rfl
  | cons slot rest ih =>
    have hrest : (preorderSlots rest).map some = (pathsFrom (i + 1) rest).map look := by
      refine ih (fun j child hchild below => ?_)
        fun child hchild => hslots child (List.mem_cons_of_mem _ hchild)
      rw [Nat.add_assoc, Nat.add_comm 1, hlook (j + 1) child hchild]
    cases slot with
    | none => exact hrest
    | some child =>
      have hbelow : ∀ below, look (i :: below) = child.at? below := hlook 0 child rfl
      simp only [preorderSlots, pathsFrom, List.map_append, List.map_map, Function.comp_def,
        hbelow, hslots child List.mem_cons_self, hrest]

/-- Pre-order lists what is at the paths. -/
theorem preorder_eq_paths (n : Node) : n.preorder.map some = n.paths.map (n.at? ·) := by
  induction n with
  | mk data slots ih =>
    have hslots : (preorderSlots slots).map some =
        (pathsFrom 0 slots).map ((mk data slots).at? ·) := by
      refine preorderSlots_eq_paths (fun j child hchild below => ?_) ih
      rw [Nat.zero_add, at?, child?, Node.slots, hchild]
      rfl
    rw [preorder, paths, List.map_cons, List.map_cons, hslots]
    rfl

end

end PixelEffect.Node
