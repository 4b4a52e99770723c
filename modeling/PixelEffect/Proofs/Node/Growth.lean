import PixelEffect.Proofs.Node.Attach

namespace PixelEffect.Node

/-- A property that new nodes have and that attaching a child hands on. -/
structure Grows (P : Node → Prop) : Prop where
  leaf : ∀ id kind optimizations, P (leaf id kind optimizations)
  attached : ∀ {n m : Node} {child : Option Node} {sampling : Sampling}, P n →
    (∀ c, child = some c → P c) → n.withChild child sampling = .ok m → P m

section

variable {P : Node → Prop}

/-- Whatever growth preserves holds of what comes of attaching. -/
theorem Grows.run_attach (hP : Grows P) {n m : Node} {child : Option Node} {sampling : Sampling}
    {id last : NodeId} (hn : P n) (hchild : ∀ c, child = some c → P c)
    (h : (n.attach child sampling).run id = .ok (m, last)) : P m :=
  hP.attached hn hchild (run_attach_eq_ok.mp h).1

/-- A copy grows by its children, which have been grown before. -/
theorem Grows.run_cloneSlots (hP : Grows P) {slots : List (Option Node)} {copy out : Node}
    {id last : NodeId}
    (hslots : ∀ child, some child ∈ slots → ∀ {id copy last},
      child.clone.run id = .ok (copy, last) → P copy)
    (hcopy : P copy) (h : (cloneSlots slots copy).run id = .ok (out, last)) : P out := by
  induction slots generalizing copy id with
  | nil =>
    rw [cloneSlots, Build.run_pure_eq_ok] at h
    exact h.1 ▸ hcopy
  | cons slot rest ih =>
    have hrest : ∀ child, some child ∈ rest → ∀ {id copy last},
        child.clone.run id = .ok (copy, last) → P copy :=
      fun child hchild => hslots child (List.mem_cons_of_mem _ hchild)
    cases slot with
    | none =>
      rw [cloneSlots, Build.run_bind_eq_ok] at h
      obtain ⟨next, id', hnext, h⟩ := h
      exact ih hrest (hP.run_attach hcopy (fun _ h => (by cases h)) hnext) h
    | some child =>
      rw [cloneSlots, Build.run_bind_eq_ok] at h
      obtain ⟨childCopy, id', hchildCopy, h⟩ := h
      obtain ⟨next, id'', hnext, h⟩ := Build.run_bind_eq_ok.mp h
      have hchild := hslots child List.mem_cons_self hchildCopy
      exact ih hrest (hP.run_attach hcopy (by rintro _ ⟨⟩; exact hchild) hnext) h

/-- Whatever the original is like, a copy has what all grown trees have. -/
theorem Grows.run_clone (hP : Grows P) {n copy : Node} {id last : NodeId}
    (h : n.clone.run id = .ok (copy, last)) : P copy := by
  induction n generalizing id copy last with
  | mk data slots ih =>
    rw [clone, Build.run_bind_of_ok (run_create _ _ _)] at h
    exact hP.run_cloneSlots (fun child hchild => ih child hchild) (hP.leaf _ _ _) h

end

end PixelEffect.Node
