import PixelEffect.Node.Basic

namespace PixelEffect

namespace Node

mutual

/-- The number of nodes of a tree. -/
def size : Node → Nat
  | mk _ slots => sizeSlots slots + 1

def sizeSlots : List (Option Node) → Nat
  | [] => 0
  | none :: rest => sizeSlots rest
  | some child :: rest => size child + sizeSlots rest

end

mutual

/-- The nodes of a tree in pre-order: each node before its children, the children from left to
right. -/
def preorder : Node → List Node
  | mk data slots => mk data slots :: preorderSlots slots

def preorderSlots : List (Option Node) → List Node
  | [] => []
  | none :: rest => preorderSlots rest
  | some child :: rest => preorder child ++ preorderSlots rest

end

end Node

/-- A walk over one or more trees. The trees that are still to be visited are kept on a stack, the
next one on top. -/
structure Walk where
  pending : List Node

namespace Walk

/-- Visits the trees one after another. -/
def ofRoots (roots : List Node) : Walk := ⟨roots⟩

/-- Puts a tree on the stack, if there is one. -/
def push : Option Node → List Node → List Node
  | none, pending => pending
  | some n, pending => n :: pending

/-- The next node, and the walk behind it. The children of the node go on the stack from the last to
the first. -/
def next? (w : Walk) : Option (Node × Walk) :=
  match w.pending with
  | [] => none
  | n :: rest => some (n, ⟨n.slots.foldr push rest⟩)

/-- The number of nodes still to be visited. -/
def remaining (w : Walk) : Nat := Node.sizeSlots (w.pending.map some)

/-- The first nodes of a walk, at most `count` of them. -/
def take : (count : Nat) → Walk → List Node
  | 0, _ => []
  | count + 1, w =>
    match w.next? with
    | none => []
    | some (n, rest) => n :: take count rest

/-- All nodes of a walk. -/
def toList (w : Walk) : List Node := w.take w.remaining

end Walk

namespace Node

/-- The place of a node's parent among the nodes of a walk: that of the first node with the
parent's identity, if there is one. -/
def parentIndex? (nodes : List Node) (n : Node) : Option (Option Nat) :=
  n.parent.map fun parent => nodes.findIdx? (·.id = parent)

end Node

end PixelEffect
