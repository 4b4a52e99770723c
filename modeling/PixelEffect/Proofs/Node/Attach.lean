import PixelEffect.Proofs.Build
import PixelEffect.Proofs.Node.Content

namespace PixelEffect

/-- The identity that is handed out after this one. -/
def NodeId.next (id : NodeId) : NodeId := ⟨id.index + 1⟩

namespace Node

/-- The node with one more slot. Nothing is checked here. -/
def attached (n : Node) (child : Option Node) (sampling : Sampling) : Node :=
  match child with
  | none => mk n.data (n.slots ++ [none])
  | some child =>
    mk (learnFrom n.data (child.sampled sampling))
      (n.slots ++ [some ((child.sampled sampling).withParent n.id)])

/-- An empty slot may always be added. A child may be attached exactly if both nodes are fresh. -/
theorem withChild_eq_ok_iff {n m : Node} {child : Option Node} {sampling : Sampling} :
    n.withChild child sampling = .ok m ↔
      (∀ c, child = some c → c.isFresh ∧ n.isFresh) ∧ m = n.attached child sampling := by
  cases child with
  | none =>
    simp only [withChild, attached, Except.ok.injEq]
    exact ⟨fun h => ⟨fun _ hc => (by cases hc), h.symm⟩, fun h => h.2.symm⟩
  | some child =>
    by_cases hc : child.isFresh
    · by_cases hn : n.isFresh
      · simp only [withChild, attached, hc, hn, Bool.not_true, Bool.false_eq_true, if_false,
          Except.ok.injEq]
        exact ⟨fun h => ⟨fun c hc => ⟨by cases hc; assumption, trivial⟩, h.symm⟩,
          fun h => h.2.symm⟩
      · simp [withChild, hc, hn]
    · simp [withChild, hc]

/-- A new node is a leaf with the next identity. -/
theorem run_create (kind : Kind) (optimizations : Optimizations) (id : NodeId) :
    (create kind optimizations).run id = .ok (leaf id kind optimizations, id.next) := rfl

/-- Attaching takes no identity. -/
theorem run_attach_eq_ok {n m : Node} {child : Option Node} {sampling : Sampling}
    {id last : NodeId} :
    (n.attach child sampling).run id = .ok (m, last) ↔
      n.withChild child sampling = .ok m ∧ id = last := by
  unfold attach
  cases n.withChild child sampling with
  | ok m' =>
    rw [Build.checked, Build.run_pure_eq_ok, Except.ok.injEq]
  | error v =>
    constructor
    · intro h
      cases h
    · intro h
      cases h.1

/-- Fresh nodes can be attached to each other. -/
theorem run_attach {n : Node} {child : Option Node} {sampling : Sampling} (id : NodeId)
    (hn : n.isFresh) (hchild : ∀ c, child = some c → c.isFresh) :
    (n.attach child sampling).run id = .ok (n.attached child sampling, id) := by
  rw [run_attach_eq_ok, withChild_eq_ok_iff]
  exact ⟨⟨fun c hc => ⟨hchild c hc, hn⟩, rfl⟩, rfl⟩

@[simp] theorem isFresh_leaf (id : NodeId) (kind : Kind) (optimizations : Optimizations) :
    (leaf id kind optimizations).isFresh := by
  rfl

@[simp] theorem isFresh_attached (n : Node) (child : Option Node) (sampling : Sampling) :
    (n.attached child sampling).isFresh = n.isFresh := by
  cases child <;> rfl

@[simp] theorem kind_leaf (id : NodeId) (kind : Kind) (optimizations : Optimizations) :
    (leaf id kind optimizations).kind = kind := rfl

@[simp] theorem optimizations_leaf (id : NodeId) (kind : Kind) (optimizations : Optimizations) :
    (leaf id kind optimizations).optimizations = optimizations := rfl

@[simp] theorem slots_leaf (id : NodeId) (kind : Kind) (optimizations : Optimizations) :
    (leaf id kind optimizations).slots = [] := rfl

@[simp] theorem kind_attached (n : Node) (child : Option Node) (sampling : Sampling) :
    (n.attached child sampling).kind = n.kind := by
  cases child <;> rfl

@[simp] theorem optimizations_attached (n : Node) (child : Option Node) (sampling : Sampling) :
    (n.attached child sampling).optimizations = n.optimizations := by
  cases child <;> rfl

@[simp] theorem slots_attached (n : Node) (child : Option Node) (sampling : Sampling) :
    (n.attached child sampling).slots =
      n.slots ++ [child.map fun c => (c.sampled sampling).withParent n.id] := by
  cases child <;> rfl

/-- The children are those from before and the new one, which knows its parent. -/
theorem mem_slots_attached {n c : Node} {child : Option Node} {sampling : Sampling} :
    some c ∈ (n.attached child sampling).slots ↔
      some c ∈ n.slots ∨ ∃ d, child = some d ∧ (d.sampled sampling).withParent n.id = c := by
  rw [slots_attached, List.mem_append, List.mem_singleton, eq_comm (a := some c),
    Option.map_eq_some_iff]

/-- The content of a node with one more child, in terms of the contents of both. -/
theorem slots_content_attached (n : Node) (child : Option Node) (sampling : Sampling) :
    (n.attached child sampling).slots.map (Option.map content) =
      n.slots.map (Option.map content) ++ [child.map content] := by
  cases child <;> simp

end Node

end PixelEffect
