import PixelEffect.Proofs.Node.Recolor
import PixelEffect.Proofs.Pool.Identities
import PixelEffect.Proofs.Pool.Manufactured

namespace PixelEffect

open Node

/-- What a program may ask for. Trees are handed over, and nodes in them are named by paths. -/
inductive Request
  | create (kind : Kind) (optimizations : Optimizations)
  | call (c : Effect.Call)
  | describe (d : Description)
  | attach (root : Node) (path : Path) (child : Option Node) (sampling : Sampling)
  | clone (root : Node) (path : Path)
  | recolor (root : Node) (path : Path) (c : Color Single)

namespace Request

/-- The kind of operation that a request comes down to. Descriptions are built by calls. -/
def operation : Request → Operation
  | create .. => .create
  | call _ | describe _ => .call
  | attach .. => .attach
  | clone .. => .clone
  | recolor .. => .recolor

/-- The trees that are handed over. -/
def operands : Request → List Node
  | create .. | describe _ => []
  | call c => c.operands.filterMap id
  | attach root _ child _ => root :: child.toList
  | clone root _ | recolor root .. => [root]

/-- The trees that are given back. A path that leads nowhere changes nothing. -/
def run : Request → Build (List Node)
  | create kind optimizations => return [← Node.create kind optimizations]
  | call c => return (← c.run).toList
  | describe d => return (← d.build).toList
  | attach root path child sampling =>
    match root.at? path with
    | none => return root :: child.toList
    | some n => return [replaceAt (← n.attach child sampling) path root]
  | clone root path =>
    match root.at? path with
    | none => return [root]
    | some n => return [← n.clone, root]
  | recolor root path c => return [(root.recolorAt path c).1]

end Request

namespace Pool

/-- What a program with requests of the allowed kinds may own, and the next identity. Trees may be
dropped at any time. -/
inductive Session (allowed : Operation → Prop) : Pool → Prop
  | start : Session allowed empty
  | returned {pool : Pool} {r : Request} {rest dropped out : List Node} {last : NodeId}
      (hpool : Session allowed pool) (hallowed : allowed r.operation)
      (htrees : pool.trees.Perm (r.operands ++ rest ++ dropped))
      (hrun : r.run.run pool.next = .ok (out, last)) : Session allowed ⟨out ++ rest, last⟩
  | failed {pool : Pool} {r : Request} {rest dropped : List Node} {e : Failure} {last : NodeId}
      (hpool : Session allowed pool) (hallowed : allowed r.operation)
      (htrees : pool.trees.Perm (r.operands ++ rest ++ dropped))
      (hrun : r.run.run pool.next = .error e) (hlast : pool.next.index ≤ last.index) :
      Session allowed ⟨rest, last⟩

section

variable {allowed : Operation → Prop} {trees rest out : List Node} {next last : NodeId}
  {pool : Pool} {r : Request}

/-- A request that succeeds is an operation on the pool, or several. -/
theorem Reachable.request (hpool : Reachable allowed ⟨trees, next⟩) (hallowed : allowed r.operation)
    (htrees : trees.Perm (r.operands ++ rest)) (hrun : r.run.run next = .ok (out, last)) :
    ∃ trees', Reachable allowed ⟨trees', last⟩ ∧ trees'.Perm (out ++ rest) := by
  cases r with
  | create kind optimizations =>
    cases hrun
    exact ⟨_, hpool.step hallowed (.create kind optimizations), htrees.cons _⟩
  | call c =>
    obtain ⟨result, _, hresult, hrun⟩ := Build.run_bind_eq_ok.mp hrun
    obtain ⟨rfl, rfl⟩ := Build.run_pure_eq_ok.mp hrun
    exact ⟨_, hpool.step hallowed (.call htrees hresult), .refl _⟩
  | describe d =>
    obtain ⟨result, _, hresult, hrun⟩ := Build.run_bind_eq_ok.mp hrun
    obtain ⟨rfl, rfl⟩ := Build.run_pure_eq_ok.mp hrun
    obtain ⟨recipe, hrecipe⟩ := d.followsRecipe_build _ _ _ hresult
    exact ⟨_, hpool.build hallowed recipe hrecipe, htrees.append_left _⟩
  | attach root path child sampling =>
    simp only [Request.run] at hrun
    split at hrun
    · obtain ⟨rfl, rfl⟩ := Build.run_pure_eq_ok.mp hrun
      exact ⟨trees, hpool, htrees⟩
    · rename_i n hn
      obtain ⟨m, _, hm, hrun⟩ := Build.run_bind_eq_ok.mp hrun
      obtain ⟨rfl, rfl⟩ := Build.run_pure_eq_ok.mp hrun
      obtain ⟨hattach, rfl⟩ := run_attach_eq_ok.mp hm
      exact ⟨_, hpool.step hallowed (.attach path htrees hn hattach), .refl _⟩
  | clone root path =>
    simp only [Request.run] at hrun
    split at hrun
    · obtain ⟨rfl, rfl⟩ := Build.run_pure_eq_ok.mp hrun
      exact ⟨trees, hpool, htrees⟩
    · rename_i n hn
      obtain ⟨copy, _, hcopy, hrun⟩ := Build.run_bind_eq_ok.mp hrun
      obtain ⟨rfl, rfl⟩ := Build.run_pure_eq_ok.mp hrun
      have hroot : root ∈ trees := htrees.mem_iff.mpr (List.mem_append_left _ List.mem_cons_self)
      exact ⟨_, hpool.step hallowed (.clone path hroot hn hcopy), htrees.cons copy⟩
  | recolor root path c =>
    obtain ⟨rfl, rfl⟩ := Build.run_pure_eq_ok.mp hrun
    cases hn : root.at? path with
    | none =>
      refine ⟨trees, hpool, ?_⟩
      rw [recolorAt, hn]
      exact htrees
    | some n =>
      obtain ⟨hcolor, hrecolor⟩ | ⟨_, e, hrecolor⟩ := recolorAt_cases hn c
      · have hm := recolor_eq_ok_iff.mpr ⟨hcolor, rfl⟩
        rw [hrecolor]
        exact ⟨_, hpool.step hallowed (.recolor path htrees hn hm), .refl _⟩
      · rw [hrecolor]
        exact ⟨trees, hpool, htrees⟩

/-- Identities can be used up by building trees that nobody wants. -/
theorem Reachable.advance (hcall : allowed .call) (hpool : Reachable allowed ⟨trees, next⟩)
    (hlast : next.index ≤ last.index) : ∃ more, Reachable allowed ⟨more ++ trees, last⟩ := by
  obtain ⟨next⟩ := next
  obtain ⟨last⟩ := last
  obtain ⟨count, rfl⟩ := Nat.exists_eq_add_of_le hlast
  clear hlast
  induction count with
  | zero => exact ⟨[], hpool⟩
  | succ count ih =>
    obtain ⟨more, hmore⟩ := ih
    exact ⟨_ :: more, hmore.step hcall (@Step.call _ _ _ _ (.source .destColor) _ (.refl _) rfl)⟩

/-- The trees of a session are among those of a pool that can be reached without failures. -/
theorem Session.exists_reachable (hcall : allowed .call) (h : Session allowed pool) :
    ∃ trees dropped, Reachable allowed ⟨trees, pool.next⟩ ∧
      trees.Perm (pool.trees ++ dropped) := by
  induction h with
  | start => exact ⟨[], [], .empty, .refl _⟩
  | @returned pool r rest dropped out last _ hallowed htrees hrun ih =>
    obtain ⟨trees, before, hreachable, hperm⟩ := ih
    have hoperands : trees.Perm (r.operands ++ (rest ++ (dropped ++ before))) := by
      simpa only [List.append_assoc] using hperm.trans (htrees.append_right before)
    obtain ⟨trees', hreachable', hperm'⟩ := hreachable.request hallowed hoperands hrun
    exact ⟨trees', dropped ++ before, hreachable', by rwa [List.append_assoc]⟩
  | @failed pool r rest dropped e last _ _ htrees _ hlast ih =>
    obtain ⟨trees, before, hreachable, hperm⟩ := ih
    obtain ⟨more, hreachable'⟩ := hreachable.advance hcall hlast
    refine ⟨more ++ trees, r.operands ++ (dropped ++ before) ++ more, hreachable', ?_⟩
    have hrest : trees.Perm (rest ++ (r.operands ++ (dropped ++ before))) := by
      refine (hperm.trans (htrees.append_right before)).trans ?_
      simp only [List.append_assoc]
      exact List.perm_append_comm_assoc _ _ _
    rw [← List.append_assoc]
    exact List.perm_append_comm.trans (hrest.append_right more)

/-- A property that every operation hands on holds of all trees of a session. -/
theorem Session.preserves {P : Node → Prop} (hP : Preserved allowed P) (hcall : allowed .call)
    (h : Session allowed pool) : ∀ n, n ∈ pool.trees → P n := by
  obtain ⟨trees, dropped, hreachable, hperm⟩ := h.exists_reachable hcall
  intro n hn
  exact hreachable.preserves hP n (hperm.mem_iff.mpr (List.mem_append_left _ hn))

/-- Failures do not bring an identity into a pool twice. -/
theorem Session.nodup_ids (hcall : allowed .call) (h : Session allowed pool) :
    pool.ids.Nodup := by
  obtain ⟨trees, dropped, hreachable, hperm⟩ := h.exists_reachable hcall
  have hnodup := (perm_idsOf hperm).nodup_iff.mp hreachable.nodup_ids
  rw [idsOf_append] at hnodup
  exact hnodup.of_append_left

/-- One call puts a gradient into a pool. -/
theorem session_gradient (hcall : allowed .call) : Session allowed ⟨[gradient], ⟨1⟩⟩ :=
  @Session.returned _ empty (.call (.source (.linearGradient ⟨0, 0⟩ ⟨1, 0⟩ .white .white)))
    [] [] [gradient] ⟨1⟩ .start hcall (.refl _) rfl

end

end Pool

end PixelEffect
