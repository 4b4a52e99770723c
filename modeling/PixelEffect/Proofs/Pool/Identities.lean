import PixelEffect.Proofs.Effect.Identities
import PixelEffect.Proofs.Node.Flags
import PixelEffect.Proofs.Pool.Basic

namespace PixelEffect.Pool

open Node Effect

/-- The identities of all nodes that are owned. -/
def ids (pool : Pool) : List NodeId := idsOf pool.trees

theorem perm_idsOf {trees others : List Node} (h : trees.Perm others) :
    (idsOf trees).Perm (idsOf others) :=
  h.flatMap_right _

/-- What one operation can do to the identities. -/
theorem Step.issued {operation : Operation} {pool pool' : Pool} (h : Step operation pool pool') :
    Issued pool.ids pool.next pool'.next pool'.ids := by
  cases h with
  | create kind optimizations =>
    exact ((Issues.create ..).of_run (run_create kind optimizations _)).append_right _
  | @call trees rest next last c out htrees hrun =>
    have hids := perm_idsOf htrees
    rw [idsOf_append] at hids
    simp only [Pool.ids, idsOf_append]
    exact ((c.issues.of_run hrun).append_right _).mono hids.symm.subperm
  | @attach trees rest next root n m child sampling path htrees hn hm =>
    refine ⟨Nat.le_refl _, fun x => ?_⟩
    obtain ⟨_, rfl⟩ := withChild_eq_ok_iff.mp hm
    have hcount := (perm_idsOf htrees).count_eq x
    have hroot := count_ids_replaceAt hn (m := n.attached child sampling) (x := x)
      (k := (idsOf child.toList).count x) (by rw [ids_attached, List.count_append])
    simp only [idsOf_cons, idsOf_append, List.cons_append, List.count_append] at hcount
    simp only [Pool.ids, idsOf_cons, List.count_append]
    omega
  | clone path _ _ hrun =>
    exact ((issues_clone _).of_run hrun).append_right _
  | @recolor trees rest next root n m c path htrees hn hm =>
    refine ⟨Nat.le_refl _, fun x => ?_⟩
    have hids : m.ids = n.ids := by
      obtain ⟨_, _, _, rfl⟩ := recolor_eq_ok hm
      rw [ids_eq, ids_eq n]
      rfl
    have hcount := (perm_idsOf htrees).count_eq x
    have hroot := count_ids_replaceAt hn (m := m) (x := x) (k := 0) (by rw [hids]; rfl)
    simp only [idsOf_cons, List.count_append] at hcount
    simp only [Pool.ids, idsOf_cons, List.count_append]
    omega

/-- All identities of a pool have been handed out, each of them to one node. -/
theorem Reachable.issued {allowed : Operation → Prop} {pool : Pool} (h : Reachable allowed pool) :
    Issued [] ⟨0⟩ pool.next pool.ids := by
  induction h with
  | empty => exact .refl (.refl _)
  | step _ _ hstep ih =>
    have hissued := hstep.issued
    rw [← List.append_nil (ids _)] at hissued
    exact ih.trans hissued

/-- No two nodes of a pool have the same identity. -/
theorem Reachable.nodup_ids {allowed : Operation → Prop} {pool : Pool}
    (h : Reachable allowed pool) : pool.ids.Nodup :=
  h.issued.nodup

end PixelEffect.Pool
