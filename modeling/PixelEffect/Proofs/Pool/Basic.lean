import PixelEffect.Node.Edit
import PixelEffect.Proofs.Effect.Crafted

namespace PixelEffect

/-- The kinds of operations on a pool. -/
inductive Operation
  | create
  | call
  | attach
  | clone
  | recolor
deriving DecidableEq

/-- The operations that put trees together, without those that copy or change them. -/
def Operation.assembling : List Operation := [create, call, attach]

/-- The trees that are owned, and the next identity that nobody has. -/
structure Pool where
  trees : List Node
  next : NodeId

namespace Pool

def empty : Pool := ⟨[], ⟨0⟩⟩

/-- What an operation may do to a pool. Where a rule of the library is broken there is no step. -/
inductive Step : Operation → Pool → Pool → Prop
  /-- A childless node of any kind, whatever its optimizations. -/
  | create {trees : List Node} {next : NodeId} (kind : Kind) (optimizations : Optimizations) :
      Step .create ⟨trees, next⟩ ⟨Node.leaf next kind optimizations :: trees, next.next⟩
  /-- A public constructor takes its operands and may yield a tree. -/
  | call {trees rest : List Node} {next last : NodeId} {c : Effect.Call} {out : Option Node}
      (htrees : trees.Perm (c.operands.filterMap id ++ rest))
      (hrun : c.run.run next = .ok (out, last)) :
      Step .call ⟨trees, next⟩ ⟨out.toList ++ rest, last⟩
  /-- A node anywhere in a tree gets one more slot, with another tree or without. -/
  | attach {trees rest : List Node} {next : NodeId} {root n m : Node} {child : Option Node}
      {sampling : Sampling} (path : Node.Path) (htrees : trees.Perm (root :: child.toList ++ rest))
      (hn : root.at? path = some n) (hm : n.withChild child sampling = .ok m) :
      Step .attach ⟨trees, next⟩ ⟨Node.replaceAt m path root :: rest, next⟩
  /-- A copy of a node anywhere in a tree. -/
  | clone {trees : List Node} {next last : NodeId} {root n copy : Node} (path : Node.Path)
      (htrees : root ∈ trees) (hn : root.at? path = some n)
      (hrun : n.clone.run next = .ok (copy, last)) :
      Step .clone ⟨trees, next⟩ ⟨copy :: trees, last⟩
  /-- Another color for a node anywhere in a tree. -/
  | recolor {trees rest : List Node} {next : NodeId} {root n m : Node} {c : Color Single}
      (path : Node.Path) (htrees : trees.Perm (root :: rest)) (hn : root.at? path = some n)
      (hm : n.recolor c = .ok m) :
      Step .recolor ⟨trees, next⟩ ⟨Node.replaceAt m path root :: rest, next⟩

/-- The pools that a program can get to with operations of the allowed kinds. -/
inductive Reachable (allowed : Operation → Prop) : Pool → Prop
  | empty : Reachable allowed empty
  | step {operation : Operation} {pool pool' : Pool} (hpool : Reachable allowed pool)
      (hallowed : allowed operation) (hstep : Step operation pool pool') : Reachable allowed pool'

/-- A property of trees that every operation hands on. -/
structure Preserved (allowed : Operation → Prop) (P : Node → Prop) : Prop where
  create : allowed .create → ∀ id kind optimizations, P (Node.leaf id kind optimizations)
  call : allowed .call → ∀ (c : Effect.Call) (id : NodeId) (out : Node) (last : NodeId),
    (∀ n, some n ∈ c.operands → P n) → c.run.run id = .ok (some out, last) → P out
  attach : allowed .attach → ∀ (root n m : Node) (path : Node.Path) (child : Option Node)
    (sampling : Sampling), P root → (∀ c, child = some c → P c) → root.at? path = some n →
    n.withChild child sampling = .ok m → P (Node.replaceAt m path root)
  clone : allowed .clone → ∀ (root n copy : Node) (path : Node.Path) (id last : NodeId),
    P root → root.at? path = some n → n.clone.run id = .ok (copy, last) → P copy
  recolor : allowed .recolor → ∀ (root n m : Node) (path : Node.Path) (c : Color Single),
    P root → root.at? path = some n → n.recolor c = .ok m → P (Node.replaceAt m path root)

/-- What every single operation preserves holds of all trees behind a step. -/
theorem Step.preserves {allowed : Operation → Prop} {P : Node → Prop} (hP : Preserved allowed P)
    {operation : Operation} (hallowed : allowed operation) {pool pool' : Pool}
    (hstep : Step operation pool pool') (htrees : ∀ n, n ∈ pool.trees → P n) :
    ∀ n, n ∈ pool'.trees → P n := by
  cases hstep with
  | create kind optimizations =>
    intro n hn
    rcases List.mem_cons.mp hn with rfl | hn
    · exact hP.create hallowed _ _ _
    · exact htrees n hn
  | @call trees rest next last c out hperm hrun =>
    have hall : ∀ n, n ∈ c.operands.filterMap id ++ rest → P n :=
      fun n hn => htrees n (hperm.mem_iff.mpr hn)
    intro n hn
    rcases List.mem_append.mp hn with hn | hn
    · obtain rfl := Option.mem_toList.mp hn
      refine hP.call hallowed c next n last (fun m hm => hall m ?_) hrun
      exact List.mem_append_left _ (List.mem_filterMap.mpr ⟨_, hm, rfl⟩)
    · exact hall n (List.mem_append_right _ hn)
  | @attach trees rest next root m m' child sampling path hperm hat hm =>
    have hall : ∀ n, n ∈ root :: child.toList ++ rest → P n :=
      fun n hn => htrees n (hperm.mem_iff.mpr hn)
    intro n hn
    rcases List.mem_cons.mp hn with rfl | hn
    · refine hP.attach hallowed root m m' path child sampling (hall root (by simp)) ?_ hat hm
      rintro c rfl
      exact hall c (by simp)
    · exact hall n (by simp [hn])
  | clone path hroot hat hrun =>
    intro n hn
    rcases List.mem_cons.mp hn with rfl | hn
    · exact hP.clone hallowed _ _ _ path _ _ (htrees _ hroot) hat hrun
    · exact htrees n hn
  | recolor path hperm hat hm =>
    intro n hn
    rcases List.mem_cons.mp hn with rfl | hn
    · exact hP.recolor hallowed _ _ _ path _ (htrees _ (hperm.mem_iff.mpr (by simp))) hat hm
    · exact htrees n (hperm.mem_iff.mpr (by simp [hn]))

/-- A property that every operation hands on holds of all trees there are. -/
theorem Reachable.preserves {allowed : Operation → Prop} {P : Node → Prop}
    (hP : Preserved allowed P) {pool : Pool} (h : Reachable allowed pool) :
    ∀ n, n ∈ pool.trees → P n := by
  induction h with
  | empty => exact fun _ hn => (by cases hn)
  | step _ hallowed hstep ih => exact hstep.preserves hP hallowed ih

end Pool

end PixelEffect
