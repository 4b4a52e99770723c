import PixelEffect.Kind
import PixelEffect.Node.Properties

namespace PixelEffect

/-- The identity of a node: no two nodes of a program share one. -/
structure NodeId where
  index : Nat
deriving DecidableEq

/-- What a node is, apart from its children. -/
structure NodeData where
  id : NodeId
  kind : Kind
  /-- The node that this one is attached to. -/
  parent : Option NodeId
  flags : NodeFlags
  sampling : Sampling
  optimizations : Optimizations
  capabilities : Capabilities

/-- An effect with its children. An absent child keeps its slot. -/
inductive Node
  | mk (data : NodeData) (slots : List (Option Node))

namespace Node

def data : Node → NodeData
  | mk data _ => data

def slots : Node → List (Option Node)
  | mk _ slots => slots

def id (n : Node) : NodeId := n.data.id

def kind (n : Node) : Kind := n.data.kind

def name (n : Node) : String := n.kind.name

def parent (n : Node) : Option NodeId := n.data.parent

def flags (n : Node) : NodeFlags := n.data.flags

def sampling (n : Node) : Sampling := n.data.sampling

def optimizations (n : Node) : Optimizations := n.data.optimizations

def capabilities (n : Node) : Capabilities := n.data.capabilities

/-- Reads the sample coordinate, directly or through a descendant. -/
def usesCoords (n : Node) : Bool := n.flags.usesCoordsDirectly || n.flags.usesCoordsIndirectly

/-- The child in slot `i`, if there is such a slot and it is not empty. -/
def child? (n : Node) (i : Nat) : Option Node := n.slots[i]?.join

/-- The children that are present, in order. -/
def children (n : Node) : List Node := n.slots.filterMap fun slot => slot

/-- A childless node. What its kind says about coordinates, destination and features shows in its
flags; everything else is up to the effect that creates it. -/
def leaf (id : NodeId) (kind : Kind) (optimizations : Optimizations) : Node :=
  mk
    { id, kind, parent := none
      flags := ⟨kind.usesCoords, false, false, false, kind.readsDestination⟩
      sampling := .unsampled, optimizations
      capabilities := ⟨kind.usesFragCoord⟩ }
    []

/-- The optimizations of an optional node. -/
def optimizationsOf : Option Node → Optimizations
  | none => .all
  | some n => n.optimizations

/-- A node that nobody samples: it has no parent, no sampling and no flag from above. -/
def isFresh (n : Node) : Bool :=
  n.parent.isNone && !n.sampling.isSampled && !n.flags.explicitCoords && !n.flags.netPerspective

end Node

end PixelEffect
