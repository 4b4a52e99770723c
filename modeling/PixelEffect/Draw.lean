import PixelEffect.Node.Traversal

namespace PixelEffect

/-- The trees of one draw, each of which may be absent. -/
structure Paint where
  color : Option Node
  coverage : Option Node

namespace Paint

/-- Visits the color tree, then the coverage tree. -/
def walk (p : Paint) : Walk := ⟨Walk.push p.color (Walk.push p.coverage [])⟩

def nodes (p : Paint) : List Node := p.walk.toList

end Paint

/-- The roots attached to a rendering stage. The first `colorCount` of them are for color, those
behind them for coverage. -/
structure Stage where
  roots : List Node
  colorCount : Nat

namespace Stage

def empty : Stage := ⟨[], 0⟩

/-- Attaches a root behind the last one for color. -/
def addColor (s : Stage) (n : Node) : Stage :=
  ⟨s.roots.take s.colorCount ++ n :: s.roots.drop s.colorCount, s.colorCount + 1⟩

/-- Attaches a root behind all others. -/
def addCoverage (s : Stage) (n : Node) : Stage := { s with roots := s.roots ++ [n] }

/-- Visits the roots in order. -/
def walk (s : Stage) : Walk := Walk.ofRoots s.roots

def nodes (s : Stage) : List Node := s.walk.toList

def readsDestination (s : Stage) : Bool := s.roots.any (·.flags.readsDestination)

end Stage

end PixelEffect
