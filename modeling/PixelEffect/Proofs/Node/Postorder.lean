import PixelEffect.Proofs.Node.Preorder

namespace PixelEffect.Node

mutual

/-- The paths to the nodes of a tree, in post-order. -/
def postPaths : Node → List Path
  | mk _ slots => postPathsFrom 0 slots ++ [[]]

def postPathsFrom (i : Nat) : List (Option Node) → List Path
  | [] => []
  | none :: rest => postPathsFrom (i + 1) rest
  | some child :: rest => child.postPaths.map (i :: ·) ++ postPathsFrom (i + 1) rest

end

/-- Slots have the same paths in either order, if their children do. -/
theorem postPathsFrom_perm {slots : List (Option Node)}
    (h : ∀ child, some child ∈ slots → child.postPaths.Perm child.paths) (i : Nat) :
    (postPathsFrom i slots).Perm (pathsFrom i slots) := by
  induction slots generalizing i with
  | nil => exact .nil
  | cons slot rest ih =>
    have hrest := ih fun child hchild => h child (List.mem_cons_of_mem _ hchild)
    cases slot with
    | none => exact hrest (i + 1)
    | some child => exact ((h child List.mem_cons_self).map _).append (hrest (i + 1))

/-- Post-order and pre-order list the same paths. -/
theorem postPaths_perm (n : Node) : n.postPaths.Perm n.paths := by
  induction n with
  | mk data slots ih =>
    rw [postPaths, paths]
    exact (List.perm_append_singleton _ _).trans ((postPathsFrom_perm ih 0).cons _)

/-- Every node of a tree has its place in post-order. -/
theorem mem_postPaths {n : Node} {path : Path} :
    path ∈ n.postPaths ↔ (n.at? path).isSome := by
  rw [(postPaths_perm n).mem_iff, mem_paths]

/-- Where the two paths part, the first one goes into a slot further left. -/
def LeftOf : Path → Path → Prop
  | j :: path, i :: other => j < i ∨ j = i ∧ LeftOf path other
  | _, _ => False

/-- What lies further left comes earlier in pre-order. -/
theorem LeftOf.lt {path other : Path} (h : LeftOf path other) : path < other := by
  induction path generalizing other with
  | nil => cases h
  | cons j path ih =>
    cases other with
    | nil => cases h
    | cons i other =>
      rw [List.cons_lt_cons_iff]
      rcases h with hj | ⟨rfl, hbelow⟩
      · exact .inl hj
      · exact .inr ⟨rfl, ih hbelow⟩

end PixelEffect.Node
