namespace PixelEffect

/-- Properties that travel through the tree when a child is attached. -/
structure NodeFlags where
  /-- The node reads the incoming sample coordinate itself. -/
  usesCoordsDirectly : Bool
  /-- A descendant reads coordinates and no edge in between is sampled explicitly. -/
  usesCoordsIndirectly : Bool
  /-- The node is invoked with coordinates that some ancestor computes. -/
  explicitCoords : Bool
  /-- A sampling matrix above the node has perspective. -/
  netPerspective : Bool
  /-- The node or a descendant reads the destination color. -/
  readsDestination : Bool
deriving DecidableEq

/-- What may be concluded about the output of a node. -/
structure Optimizations where
  /-- The output is opaque whenever the input is. -/
  preservesOpaque : Bool
  /-- The output for a constant input can be computed ahead. -/
  constantOutput : Bool
deriving DecidableEq

/-- Features that a node or a descendant asks of the renderer. -/
structure Capabilities where
  fragCoord : Bool
deriving DecidableEq

/-- The bits of a set, the first one lowest. -/
def bitsOf (members : List Bool) : Nat :=
  members.foldr (fun member bits => 2 * bits + member.toNat) 0

/-- The text of a set of named members. -/
def setText (title : String) (members : List (String × Bool)) : String :=
  let names := (members.filter (·.2)).map (·.1)
  title ++ "(" ++ (if names.isEmpty then "0x0" else " | ".intercalate names) ++ ")"

namespace NodeFlags

def members (f : NodeFlags) : List (String × Bool) :=
  [("USES_COORDS_DIRECTLY", f.usesCoordsDirectly),
    ("USES_COORDS_INDIRECTLY", f.usesCoordsIndirectly),
    ("SAMPLED_WITH_EXPLICIT_COORDS", f.explicitCoords),
    ("NET_PERSPECTIVE", f.netPerspective),
    ("WILL_READ_DST_COLOR", f.readsDestination)]

def bits (f : NodeFlags) : Nat := bitsOf (f.members.map (·.2))

def text (f : NodeFlags) : String := setText "NodeFlags" f.members

end NodeFlags

namespace Optimizations

def empty : Optimizations := ⟨false, false⟩

/-- An absent node passes its input through, so everything may be concluded about it. -/
def all : Optimizations := ⟨true, true⟩

def inter (x y : Optimizations) : Optimizations :=
  ⟨x.preservesOpaque && y.preservesOpaque, x.constantOutput && y.constantOutput⟩

def members (f : Optimizations) : List (String × Bool) :=
  [("PRESERVES_OPAQUE_INPUT", f.preservesOpaque),
    ("CONSTANT_OUTPUT_FOR_CONSTANT_INPUT", f.constantOutput)]

def bits (f : Optimizations) : Nat := bitsOf (f.members.map (·.2))

/-- The set with the given bits; bits that name no member are dropped. -/
def ofBits (bits : Nat) : Optimizations := ⟨bits.testBit 0, bits.testBit 1⟩

def text (f : Optimizations) : String := setText "OptimizationFlags" f.members

end Optimizations

namespace Capabilities

def union (x y : Capabilities) : Capabilities := ⟨x.fragCoord || y.fragCoord⟩

def bits (c : Capabilities) : Nat := bitsOf [c.fragCoord]

end Capabilities

/-- How a child's sample coordinate relates to its parent's. -/
inductive SamplingKind
  /-- The node is not attached. -/
  | none
  /-- The coordinate is the parent's. -/
  | passThrough
  /-- The coordinate is the parent's, mapped by a uniform matrix. -/
  | uniformMatrix
  /-- The parent computes the coordinate. -/
  | explicit
deriving DecidableEq

namespace SamplingKind

def name : SamplingKind → String
  | none => "none"
  | passThrough => "pass_through"
  | uniformMatrix => "uniform_matrix"
  | explicit => "explicit"

/-- The number of the kind in a program key. -/
def code : SamplingKind → UInt32
  | none => 0
  | passThrough => 1
  | uniformMatrix => 2
  | explicit => 3

end SamplingKind

/-- How a parent samples a child. -/
structure Sampling where
  kind : SamplingKind
  /-- The mapping of coordinates divides by a third one. -/
  hasPerspective : Bool
deriving DecidableEq

namespace Sampling

def unsampled : Sampling := ⟨.none, false⟩

def passThrough : Sampling := ⟨.passThrough, false⟩

def explicit : Sampling := ⟨.explicit, false⟩

def uniformMatrix (hasPerspective : Bool) : Sampling := ⟨.uniformMatrix, hasPerspective⟩

def isSampled (u : Sampling) : Bool := u.kind ≠ .none

def isExplicit (u : Sampling) : Bool := u.kind = .explicit

/-- The word of the sampling in a program key. -/
def code (u : Sampling) : UInt32 := u.kind.code ||| u.hasPerspective.toUInt32 <<< 2

end Sampling

end PixelEffect
