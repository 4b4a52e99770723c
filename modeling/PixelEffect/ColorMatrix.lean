import PixelEffect.Color
import PixelEffect.Error

namespace PixelEffect

/-- How one output channel is made from the four input channels. -/
structure ColorRow where
  r : Single
  g : Single
  b : Single
  a : Single
  offset : Single
deriving DecidableEq

namespace ColorRow

def toList (row : ColorRow) : List Single := [row.r, row.g, row.b, row.a, row.offset]

def apply {α : Type} [Scalar α] (row : ColorRow) (r g b a : α) : α :=
  Scalar.ofSingle row.r * r + Scalar.ofSingle row.g * g + Scalar.ofSingle row.b * b
    + Scalar.ofSingle row.a * a + Scalar.ofSingle row.offset

end ColorRow

/-- An affine transform of colors, with the steps that may be taken before and after it. -/
structure ColorMatrix where
  red : ColorRow
  green : ColorRow
  blue : ColorRow
  alpha : ColorRow
  /-- Unpremultiply the input before the transform. -/
  unpremulInput : Bool
  /-- Clamp every output channel; otherwise only alpha is clamped. -/
  clampRgbOutput : Bool
  /-- Premultiply the output after clamping. -/
  premulOutput : Bool
deriving DecidableEq

namespace ColorMatrix

/-- Reads twenty coefficients, row by row, all of which have to be finite. -/
def ofList (coefficients : List Single) (unpremulInput clampRgbOutput premulOutput : Bool) :
    Except Error ColorMatrix :=
  match coefficients with
  | [r₀, r₁, r₂, r₃, r₄, g₀, g₁, g₂, g₃, g₄, b₀, b₁, b₂, b₃, b₄, a₀, a₁, a₂, a₃, a₄] =>
    if coefficients.all Ieee.isFinite then
      .ok ⟨⟨r₀, r₁, r₂, r₃, r₄⟩, ⟨g₀, g₁, g₂, g₃, g₄⟩, ⟨b₀, b₁, b₂, b₃, b₄⟩, ⟨a₀, a₁, a₂, a₃, a₄⟩,
        unpremulInput, clampRgbOutput, premulOutput⟩
    else .error (.validation .colorMatrixNotFinite)
  | _ => .error (.validation (.colorMatrixLength coefficients.length))

def rows (m : ColorMatrix) : List ColorRow := [m.red, m.green, m.blue, m.alpha]

/-- The linear part column by column. -/
def columns (m : ColorMatrix) : List Single :=
  m.rows.map (·.r) ++ m.rows.map (·.g) ++ m.rows.map (·.b) ++ m.rows.map (·.a)

def offsets (m : ColorMatrix) : List Single := m.rows.map (·.offset)

section

variable {α : Type} [Scalar α]

/-- The affine part of the transform. -/
def transform (m : ColorMatrix) (r g b a : α) : Color α :=
  ⟨m.red.apply r g b a, m.green.apply r g b a, m.blue.apply r g b a, m.alpha.apply r g b a⟩

def apply (m : ColorMatrix) (input : Color α) : Color α :=
  let c := if m.unpremulInput then
      let c := input.unpremul
      m.transform c.r c.g c.b c.a
    else m.transform input.r input.g input.b input.a
  let c := if m.clampRgbOutput then c.saturate else { c with a := Scalar.unit c.a }
  if m.premulOutput then ⟨c.r * c.a, c.g * c.a, c.b * c.a, c.a⟩ else c

end

end ColorMatrix

end PixelEffect
