import PixelEffect.Proofs.Node.Equality
import PixelEffect.Proofs.Pool.Decoding

namespace PixelEffect.Pool

open Node

/-- A tree that is owned may be attached, and may be given children. -/
theorem Reachable.isFresh {allowed : Operation → Prop} {pool : Pool} (h : Reachable allowed pool)
    {n : Node} (hn : n ∈ pool.trees) : n.isFresh :=
  (h.preserves (preserved_grown allowed) n hn).1

/-- Structural equality is exact. Two trees, or parts of trees, are alike exactly if they have the
same nodes at every place: the same kinds with the same parameters bit by bit, and the same slots,
those without a child included. So equality is an equivalence, and it is a congruence: nodes that
are alike are still alike when they have been given children that are alike, or empty slots, in the
same order, and trees that are owned can be given any others as children. -/
theorem equality_exact {allowed : Operation → Prop} {pool pool' : Pool}
    (hpool : Reachable allowed pool) (hpool' : Reachable allowed pool') {root root' a b : Node}
    {path path' : Path} (hroot : root ∈ pool.trees) (hroot' : root' ∈ pool'.trees)
    (ha : root.at? path = some a) (hb : root'.at? path' = some b) :
    (a.alike b ↔ a.Matches b) ∧
    (Equivalence fun n m : Node => (n.alike m : Prop)) ∧
    (∀ children others, List.Forall₂
      (fun child other => Option.Rel (fun n m : Node => (n.alike m : Prop)) child.1 other.1)
      children others → a.alike b → ∀ a' b', a.withChildren children = .ok a' →
      b.withChildren others = .ok b' → a'.alike b') ∧
    ∀ children, (∀ c sampling, (some c, sampling) ∈ children → c ∈ pool.trees) →
      ∃ root', root.withChildren children = .ok root' := by
  have hdeclared := (hpool.rearranged.declared root hroot).at? ha
  have hdeclared' := (hpool'.rearranged.declared root' hroot').at? hb
  refine ⟨alike_iff_matches hdeclared hdeclared', alike_equivalence, ?_, ?_⟩
  · exact fun children others hchildren halike a' b' => alike_withChildren halike hchildren
  · exact fun children hchildren => exists_withChildren (hpool.isFresh hroot)
      fun c sampling hc => hpool.isFresh (hchildren c sampling hc)

/-- A color whose red is not a number and whose green is a zero of either sign. -/
def oddColor (green : Single) : Color Single := ⟨Ieee.invalid, green, 0, 1⟩

def oddLeaf (id : NodeId) (green : Single) : Node := leaf id (.color (oddColor green)) .empty

/-- Two odd leaves and a node that they can be attached to. -/
theorem reachable_oddLeaves (green green' : Single) :
    Reachable (· ∈ Operation.assembling)
      ⟨[leaf ⟨2⟩ .compose .empty, oddLeaf ⟨1⟩ green', oddLeaf ⟨0⟩ green], ⟨3⟩⟩ := by
  have hcreate : Operation.create ∈ Operation.assembling := by decide
  have hfirst : Reachable (· ∈ Operation.assembling) ⟨[oddLeaf ⟨0⟩ green], ⟨1⟩⟩ :=
    .step .empty hcreate (.create _ _)
  have hsecond : Reachable (· ∈ Operation.assembling)
      ⟨[oddLeaf ⟨1⟩ green', oddLeaf ⟨0⟩ green], ⟨2⟩⟩ :=
    .step hfirst hcreate (.create _ _)
  exact .step hsecond hcreate (.create _ _)

/-- A color with a NaN is the same as itself, wherever it is attached and however it is sampled
there. The zeros are told apart. -/
theorem equality_exact_oddLeaves :
    let negative : Single := -0
    ((oddLeaf ⟨0⟩ negative).Matches (oddLeaf ⟨1⟩ negative) ∧
      ¬(oddLeaf ⟨0⟩ 0).Matches (oddLeaf ⟨1⟩ negative)) ∧
      ∃ n m, (leaf ⟨2⟩ .compose .empty).withChildren
          [(none, .passThrough), (some (oddLeaf ⟨0⟩ 0), .explicit)] = .ok n ∧
        (leaf ⟨2⟩ .compose .empty).withChildren
          [(none, .explicit), (some (oddLeaf ⟨1⟩ 0), .passThrough)] = .ok m ∧ n.alike m := by
  intro negative
  have hroot (n : Node) : n.at? [] = some n := rfl
  have hfirst (green green' : Single) : oddLeaf ⟨0⟩ green ∈
      [leaf ⟨2⟩ .compose .empty, oddLeaf ⟨1⟩ green', oddLeaf ⟨0⟩ green] := by simp
  have hsecond (green green' : Single) : oddLeaf ⟨1⟩ green' ∈
      [leaf ⟨2⟩ .compose .empty, oddLeaf ⟨1⟩ green', oddLeaf ⟨0⟩ green] := by simp
  have hzeros := equality_exact (reachable_oddLeaves 0 negative) (reachable_oddLeaves 0 negative)
    (hfirst _ _) (hsecond _ _) (hroot _) (hroot _)
  have hself := equality_exact (reachable_oddLeaves negative negative)
    (reachable_oddLeaves negative negative) (hfirst _ _) (hsecond _ _) (hroot _) (hroot _)
  have hparent := equality_exact (reachable_oddLeaves 0 0) (reachable_oddLeaves 0 0)
    List.mem_cons_self List.mem_cons_self (hroot _) (hroot _)
  obtain ⟨n, hn⟩ := hparent.2.2.2 [(none, .passThrough), (some (oddLeaf ⟨0⟩ 0), .explicit)]
    (by simp)
  obtain ⟨m, hm⟩ := hparent.2.2.2 [(none, .explicit), (some (oddLeaf ⟨1⟩ 0), .passThrough)]
    (by simp)
  have hchildren : Option.Rel (fun n m : Node => (n.alike m : Prop)) (some (oddLeaf ⟨0⟩ 0))
      (some (oddLeaf ⟨1⟩ 0)) := .some (by decide)
  exact ⟨⟨hself.1.mp (by decide), fun h => absurd (hzeros.1.mpr h) (by decide)⟩, n, m, hn, hm,
    hparent.2.2.1 _ _ (.cons .none (.cons hchildren .nil)) (by decide) n m hn hm⟩

end PixelEffect.Pool
