import PixelEffect.Proofs.Node.Preorder

namespace PixelEffect.Walk

open Node

/-- The nodes that a walk comes to one after the other, and behind them its end. -/
inductive Yields : Walk → List Node → Prop
  | done {w : Walk} (hnext : w.next? = none) : Yields w []
  | step {w rest : Walk} {n : Node} {nodes : List Node} (hnext : w.next? = some (n, rest))
      (hrest : Yields rest nodes) : Yields w (n :: nodes)

/-- What recursion into the trees on the stack would visit. -/
def upcoming (w : Walk) : List Node := w.pending.flatMap preorder

section

variable {w : Walk} {nodes : List Node}

/-- The children end up on top of the stack in their order, without the empty slots. -/
theorem foldr_push (slots : List (Option Node)) (pending : List Node) :
    slots.foldr push pending = (slots.filterMap fun slot => slot) ++ pending := by
  induction slots with
  | nil => rfl
  | cons slot slots ih => cases slot <;> simp [push, ih]

/-- A step takes the first of the upcoming nodes and leaves the others. -/
theorem next?_cases (w : Walk) :
    w.next? = none ∧ w.upcoming = [] ∨
      ∃ n rest, w.next? = some (n, rest) ∧ w.upcoming = n :: rest.upcoming := by
  obtain ⟨_ | ⟨⟨data, slots⟩, pending⟩⟩ := w
  · exact .inl ⟨rfl, rfl⟩
  · refine .inr ⟨_, _, rfl, ?_⟩
    rw [upcoming, List.flatMap_cons, preorder, preorderSlots_eq, upcoming, foldr_push,
      List.flatMap_append]
    rfl

/-- A walk yields the nodes that are still to come, in their order. -/
theorem yields_upcoming (w : Walk) : w.Yields w.upcoming := by
  -- The stack may grow at a step, but what is still to come gets shorter.
  generalize hnodes : w.upcoming = nodes
  induction nodes generalizing w with
  | nil =>
    obtain ⟨hnext, _⟩ | ⟨n, rest, _, hupcoming⟩ := w.next?_cases
    · exact .done hnext
    · cases hupcoming.symm.trans hnodes
  | cons m nodes ih =>
    obtain ⟨_, hupcoming⟩ | ⟨n, rest, hnext, hupcoming⟩ := w.next?_cases
    · cases hupcoming.symm.trans hnodes
    · cases hupcoming.symm.trans hnodes
      exact .step hnext (ih rest rfl)

/-- Enough steps come to all nodes. -/
theorem Yields.take_eq (h : w.Yields nodes) {count : Nat} (hcount : nodes.length ≤ count) :
    w.take count = nodes := by
  induction h generalizing count with
  | @done w hnext =>
    cases count with
    | zero => rfl
    | succ count => rw [take, hnext]
  | @step w rest n nodes hnext _ ih =>
    cases count with
    | zero => cases hcount
    | succ count =>
      rw [take, hnext]
      exact congrArg (n :: ·) (ih (Nat.le_of_succ_le_succ hcount))

end

theorem length_preorderSlots {slots : List (Option Node)}
    (h : ∀ child, some child ∈ slots → child.preorder.length = child.size) :
    (preorderSlots slots).length = sizeSlots slots := by
  induction slots with
  | nil => rfl
  | cons slot slots ih =>
    have hslots := ih fun child hchild => h child (List.mem_cons_of_mem _ hchild)
    cases slot with
    | none => exact hslots
    | some child =>
      rw [preorderSlots, sizeSlots, List.length_append, h child List.mem_cons_self, hslots]

/-- Pre-order has every node of a tree once. -/
theorem length_preorder (n : Node) : n.preorder.length = n.size := by
  induction n with
  | mk data slots ih => rw [preorder, size, List.length_cons, length_preorderSlots ih]

theorem length_upcoming (w : Walk) : w.upcoming.length = w.remaining := by
  have hslots : w.upcoming = preorderSlots (w.pending.map some) := by
    rw [preorderSlots_eq, List.filterMap_map, upcoming]
    exact congrArg (List.flatMap preorder) List.filterMap_some.symm
  rw [hslots, remaining, length_preorderSlots fun child _ => length_preorder child]

/-- Stepping through a walk visits what recursion visits. -/
theorem toList_eq (w : Walk) : w.toList = w.upcoming :=
  w.yields_upcoming.take_eq (Nat.le_of_eq w.length_upcoming)

end PixelEffect.Walk
