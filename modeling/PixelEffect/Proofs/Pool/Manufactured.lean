import PixelEffect.Proofs.Effect.Description
import PixelEffect.Proofs.Effect.Standard
import PixelEffect.Proofs.Pool.Flags

namespace PixelEffect

/-- The operations that leave it to the public constructors how trees are put together. -/
def Operation.manufacturing : List Operation := [call, clone, recolor]

namespace Pool

open Node Effect Build

/-- The pools that a program can get to by calling public constructors, building descriptions,
copying and setting colors. -/
inductive Manufactured : Pool → Prop
  | empty : Manufactured empty
  | step {operation : Operation} {pool pool' : Pool} (hpool : Manufactured pool)
      (hoperation : operation ∈ Operation.manufacturing) (hstep : Step operation pool pool') :
      Manufactured pool'
  | describe {trees : List Node} {next last : NodeId} {out : Option Node} (d : Description)
      (hpool : Manufactured ⟨trees, next⟩) (hrun : d.build.run next = .ok (out, last)) :
      Manufactured ⟨out.toList ++ trees, last⟩

section

variable {allowed : Operation → Prop} {trees : List Node} {next last : NodeId} {out : Option Node}

/-- Following a recipe is a series of calls. -/
theorem Reachable.build (hcall : allowed .call) (r : Recipe)
    (hpool : Reachable allowed ⟨trees, next⟩) (hrun : r.build.run next = .ok (out, last)) :
    Reachable allowed ⟨out.toList ++ trees, last⟩ := by
  have hstep : ∀ {trees rest next last out} (c : Call),
      trees.Perm (c.operands.filterMap id ++ rest) →
      Reachable allowed ⟨trees, next⟩ → c.run.run next = .ok (out, last) →
      Reachable allowed ⟨out.toList ++ rest, last⟩ :=
    fun c htrees hpool hrun => .step hpool hcall (.call htrees hrun)
  induction r generalizing trees next last out with
  | absent =>
    obtain ⟨rfl, rfl⟩ := run_pure_eq_ok.mp hrun
    exact hpool
  | source s => exact hstep (.source s) (.refl _) hpool hrun
  | modify m child ih =>
    obtain ⟨n, next', hn, hrun⟩ := run_bind_eq_ok.mp hrun
    refine hstep (.modify m n) ?_ (ih hpool hn) hrun
    cases n <;> exact .refl _
  | combine c f g ihf ihg =>
    obtain ⟨n, next', hn, hrun⟩ := run_bind_eq_ok.mp hrun
    obtain ⟨m, next'', hm, hrun⟩ := run_bind_eq_ok.mp hrun
    refine hstep (.combine c n m) ?_ (ihg (ihf hpool hn) hm) hrun
    have hoperands : (Call.combine c n m).operands.filterMap id = n.toList ++ m.toList := by
      cases n <;> cases m <;> rfl
    rw [hoperands, List.append_assoc]
    exact List.perm_append_comm_assoc _ _ _

/-- Building a description does nothing that calls could not do. -/
theorem Manufactured.reachable {pool : Pool} (h : Manufactured pool) :
    Reachable (· ∈ Operation.manufacturing) pool := by
  induction h with
  | empty => exact .empty
  | step _ hoperation hstep ih => exact .step ih hoperation hstep
  | describe d _ hrun ih =>
    obtain ⟨r, hr⟩ := d.followsRecipe_build _ _ _ hrun
    exact ih.build (by decide) r hr

end

/-- The operations of a manufactured pool make standard trees of standard trees. -/
theorem preserved_standard : Preserved (· ∈ Operation.manufacturing) Standard where
  create := fun h => absurd h (by decide)
  call := fun _ _ _ _ _ hoperands hrun => (Crafted.of_run hrun).standard hoperands _ rfl
  attach := fun h => absurd h (by decide)
  clone := fun _ _ _ _ _ _ _ hroot hn hrun => (hroot.at? hn).run_clone hrun
  recolor := by
    intro _ root n m path c hroot hn hm
    refine hroot.replaceAt hn ?_ ((hroot.at? hn).recolor hm)
    obtain ⟨_, _, _, rfl⟩ := recolor_eq_ok hm
    rfl

/-- All trees of a manufactured pool are standard. -/
theorem Manufactured.standard {pool : Pool} (h : Manufactured pool) {n : Node}
    (hn : n ∈ pool.trees) : n.Standard :=
  h.reachable.preserves preserved_standard n hn

theorem Manufactured.grown {pool : Pool} (h : Manufactured pool) {n : Node}
    (hn : n ∈ pool.trees) : n.Grown :=
  h.reachable.preserves (preserved_grown _) n hn

end Pool

end PixelEffect
