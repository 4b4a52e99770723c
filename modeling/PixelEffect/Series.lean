import PixelEffect.Node.Evaluation

namespace PixelEffect

/-- What is known about the color that enters a series. -/
inductive EnteringColor
  | unknown
  /-- Nothing but that it is opaque. -/
  | opaqueOnly
  | constant (color : Color Single)
deriving DecidableEq

/-- What is known behind a number of effects. -/
structure SeriesAnalysis where
  /-- The number of effects looked at. -/
  length : Nat
  /-- The color behind them, if it is constant. -/
  known : Option (Color Single)
  /-- The color behind them is opaque. -/
  isOpaque : Bool
  /-- The number of effects at the start that a constant stands for, and the constant. -/
  eliminated : Option (Nat × Color Single)
  /-- An effect that is not eliminated reads coordinates. -/
  usesCoords : Bool
  /-- An effect that is not eliminated reads the destination color. -/
  readsDestination : Bool
deriving DecidableEq

namespace SeriesAnalysis

/-- What is known in front of the first effect. -/
def start (input : EnteringColor) : SeriesAnalysis :=
  { length := 0
    known := match input with
      | .constant c => some c
      | _ => none
    isOpaque := match input with
      | .unknown => false
      | .opaqueOnly => true
      | .constant c => c.isOpaque
    eliminated := none, usesCoords := false, readsDestination := false }

/-- The constant output of an effect whose input is known or does not matter. An evaluation that
ends in an error gives none. -/
def folded? (known : Option (Color Single)) (n : Node) :
    Except Failure (Option (Color Single)) :=
  let input? := known <|> if n.ignoresInput then some .transparent else none
  match input? with
  | none => .ok none
  | some input =>
    if n.optimizations.constantOutput then
      match n.shade input with
      | .ok c => .ok (some c)
      | .error (.error _) => .ok none
      | .error (.violation v) => .error (.violation v)
    else .ok none

/-- Takes one more effect into account. If its output is constant, everything up to it collapses
into that color. -/
def step (analysis : SeriesAnalysis) (n : Node) : Except Failure SeriesAnalysis := do
  let length := analysis.length + 1
  match ← folded? analysis.known n with
  | some c =>
    return { length, known := some c, isOpaque := c.isOpaque, eliminated := some (length, c)
             usesCoords := false, readsDestination := false }
  | none =>
    return { analysis with
      length, known := none
      isOpaque := analysis.isOpaque && n.optimizations.preservesOpaque
      usesCoords := analysis.usesCoords || n.usesCoords
      readsDestination := analysis.readsDestination || n.flags.readsDestination }

/-- Analyses effects that are applied one after another, the first one first. -/
def ofSeries (input : EnteringColor) (series : List Node) : Except Failure SeriesAnalysis :=
  series.foldlM step (start input)

end SeriesAnalysis

end PixelEffect
