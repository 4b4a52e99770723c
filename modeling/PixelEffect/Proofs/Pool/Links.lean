import PixelEffect.Proofs.Node.Links
import PixelEffect.Proofs.Pool.Registration

namespace PixelEffect.Pool

open Node Effect

/-- No operation disturbs a link. -/
theorem preserved_linked (allowed : Operation → Prop) : Preserved allowed Linked where
  create := fun _ => grows_linked.leaf
  call := fun _ _ _ _ _ hoperands hrun => (Crafted.of_run hrun).grows grows_linked hoperands _ rfl
  attach := by
    intro _ root n m path child sampling hroot hchild hn hm
    obtain ⟨_, rfl⟩ := withChild_eq_ok_iff.mp hm
    exact hroot.replaceAt hn ((hroot.at? hn).attached hchild sampling) (place_attached _ _ _)
  clone := fun _ _ _ _ _ _ _ _ _ hrun => grows_linked.run_clone hrun
  recolor := by
    intro _ root n m path c hroot hn hm
    refine hroot.replaceAt hn ?_ (place_recolor hm)
    obtain ⟨_, _, _, rfl⟩ := recolor_eq_ok hm
    exact (hroot.at? hn).congr rfl rfl

/-- At every moment of a session all nodes that are owned have different identities. The roots have
no parent, and every node in a slot has the owner of the slot as its parent. -/
theorem links_consistent {pool : Pool} (hpool : Session (fun _ => True) pool) :
    pool.ids.Nodup ∧ ∀ root, root ∈ pool.trees → root.parent = none ∧
      ∀ path n i child, root.at? path = some n → n.child? i = some child →
        child.parent = some n.id := by
  refine ⟨hpool.nodup_ids trivial, fun root hroot => ⟨?_, ?_⟩⟩
  · have hplace := hpool.preserves (preserved_root _) trivial root hroot
    exact congrArg Place.parent hplace
  · intro path n i child hn hchild
    have hlinked := (hpool.preserves (preserved_linked _) trivial root hroot).at? hn
    exact (linked_iff.mp hlinked).1 child (mem_slots_of_child? hchild)

/-- The gradient below knows the node that samples it. -/
theorem links_consistent_sampledGradient :
    Session (fun _ => True) ⟨[sampledGradient], ⟨2⟩⟩ ∧ sampledGradient.parent = none ∧
      ∃ child, sampledGradient.child? 0 = some child ∧ child.parent = some ⟨1⟩ := by
  have hsampled : Session (fun _ => True) ⟨[sampledGradient], ⟨2⟩⟩ :=
    @Session.returned _ _ (.call (.modify .deviceSpace (some gradient)))
      [] [] [sampledGradient] ⟨2⟩ (session_gradient trivial) trivial (.refl _) rfl
  obtain ⟨hroot, hlinks⟩ := (links_consistent hsampled).2 sampledGradient List.mem_cons_self
  exact ⟨hsampled, hroot, _, rfl, hlinks [] sampledGradient 0 _ rfl rfl⟩

end PixelEffect.Pool
