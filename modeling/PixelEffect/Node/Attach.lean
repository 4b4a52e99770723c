import PixelEffect.Error
import PixelEffect.Node.Basic

namespace PixelEffect

/-- A computation that creates nodes. The state is the next identity that nobody has. -/
abbrev Build (α : Type) := StateT NodeId (Except Failure) α

/-- Breaks off with an error. -/
def Build.ofExcept {α : Type} : Except Error α → Build α
  | .ok x => pure x
  | .error e => throw (.error e)

/-- Breaks off where a rule of the library is broken. -/
def Build.checked {α : Type} : Except Violation α → Build α
  | .ok x => pure x
  | .error v => throw (.violation v)

/-- The flags that a sampling parent hands down to everything below it. -/
inductive InheritedFlag
  | explicitCoords
  | netPerspective
deriving DecidableEq

namespace InheritedFlag

def isSet : InheritedFlag → NodeFlags → Bool
  | explicitCoords, f => f.explicitCoords
  | netPerspective, f => f.netPerspective

def set : InheritedFlag → NodeFlags → NodeFlags
  | explicitCoords, f => { f with explicitCoords := true }
  | netPerspective, f => { f with netPerspective := true }

end InheritedFlag

namespace Node

mutual

/-- Sets a flag on a node and everything below it. Below a node that has the flag everything has
it already, so the walk ends there. -/
def pushDown (flag : InheritedFlag) : Node → Node
  | mk data slots =>
    if flag.isSet data.flags then mk data slots
    else mk { data with flags := flag.set data.flags } (pushDownSlots flag slots)

def pushDownSlots (flag : InheritedFlag) : List (Option Node) → List (Option Node)
  | [] => []
  | none :: rest => none :: pushDownSlots flag rest
  | some child :: rest => some (pushDown flag child) :: pushDownSlots flag rest

end

/-- Records how a node is sampled, and tells everything below it. -/
def sampled (sampling : Sampling) : Node → Node
  | mk data slots =>
    let child := mk { data with sampling } slots
    let child := if sampling.isExplicit then child.pushDown .explicitCoords else child
    if sampling.hasPerspective then child.pushDown .netPerspective else child

def withParent (parent : NodeId) : Node → Node
  | mk data slots => mk { data with parent := some parent } slots

/-- What a node learns from a child. An explicitly sampled child computes its own coordinates, so
their use below it is none of the node's. -/
def learnFrom (data : NodeData) (child : Node) : NodeData :=
  { data with
    flags := { data.flags with
      usesCoordsIndirectly := data.flags.usesCoordsIndirectly
        || (!child.flags.explicitCoords && child.usesCoords)
      readsDestination := data.flags.readsDestination || child.flags.readsDestination }
    capabilities := data.capabilities.union child.capabilities }

/-- Attaches an optional child in the next slot. Trees grow from the leaves: the child has to be
fresh, and so has the node that it is attached to. An empty slot may be added at any time. -/
def withChild (n : Node) (child : Option Node) (sampling : Sampling) : Except Violation Node :=
  match child with
  | none => .ok (mk n.data (n.slots ++ [none]))
  | some child =>
    if !child.isFresh then .error .childAttached
    else if !n.isFresh then .error .parentAttached
    else
      let child := child.sampled sampling
      .ok (mk (learnFrom n.data child) (n.slots ++ [some (child.withParent n.id)]))

/-- Creates a childless node. -/
def create (kind : Kind) (optimizations : Optimizations) : Build Node := do
  let id ← get
  set (⟨id.index + 1⟩ : NodeId)
  return leaf id kind optimizations

/-- `withChild` as a step of building. -/
def attach (n : Node) (child : Option Node) (sampling : Sampling) : Build Node :=
  .checked (n.withChild child sampling)

mutual

/-- A copy of a node and everything below it, with new identities. The children are attached anew,
so the copy is fresh and every flag is derived again. -/
def clone : Node → Build Node
  | mk data slots => do cloneSlots slots (← create data.kind data.optimizations)

/-- Attaches copies of the children to `copy`. -/
def cloneSlots : List (Option Node) → Node → Build Node
  | [], copy => pure copy
  | none :: rest, copy => do cloneSlots rest (← copy.attach none .passThrough)
  | some child :: rest, copy => do
    cloneSlots rest (← copy.attach (some (← clone child)) child.sampling)

end

end Node

end PixelEffect
