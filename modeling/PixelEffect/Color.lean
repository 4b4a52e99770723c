import PixelEffect.Error
import PixelEffect.Number.Scalar

namespace PixelEffect

/-- A color whose red, green and blue are already multiplied by its alpha. -/
structure Color (α : Type) where
  r : α
  g : α
  b : α
  a : α
deriving DecidableEq

/-- A color whose red, green and blue do not depend on its alpha. -/
structure StraightColor (α : Type) where
  r : α
  g : α
  b : α
  a : α
deriving DecidableEq

namespace Color

variable {α β : Type}

def map (f : α → β) (c : Color α) : Color β := ⟨f c.r, f c.g, f c.b, f c.a⟩

def zipWith (f : α → α → β) (c d : Color α) : Color β :=
  ⟨f c.r d.r, f c.g d.g, f c.b d.b, f c.a d.a⟩

/-- The channels in the order red, green, blue, alpha. -/
def toList (c : Color α) : List α := [c.r, c.g, c.b, c.a]

section Arithmetic

variable [Scalar α]

def transparent : Color α := ⟨0, 0, 0, 0⟩

def white : Color α := ⟨1, 1, 1, 1⟩

/-- The color that a parameter of an effect stands for. -/
def ofSingle (c : Color Single) : Color α := c.map Scalar.ofSingle

/-- A color is opaque if its alpha is exactly one. -/
def isOpaque (c : Color α) : Bool := Scalar.eq c.a 1

def mul (c d : Color α) : Color α := zipWith (· * ·) c d

def add (c d : Color α) : Color α := zipWith (· + ·) c d

/-- Multiplies every channel by `s`. -/
def scale (c : Color α) (s : α) : Color α := c.map (· * s)

/-- Brings every channel into the unit interval. -/
def saturate (c : Color α) : Color α := c.map Scalar.unit

/-- Divides by alpha. A transparent color has no color to recover and becomes transparent black. -/
def unpremul (c : Color α) : StraightColor α :=
  if Scalar.eq c.a 0 then ⟨0, 0, 0, 0⟩
  else
    let inverse := 1 / c.a
    ⟨c.r * inverse, c.g * inverse, c.b * inverse, c.a⟩

end Arithmetic

/-- A color that comes from outside has to be finite in every channel. -/
def isFinite (c : Color Single) : Bool := c.toList.all Ieee.isFinite

def validate (c : Color Single) : Except Error (Color Single) :=
  if c.isFinite then .ok c else .error (.validation .colorNotFinite)

end Color

namespace StraightColor

variable {α : Type} [Scalar α]

/-- Multiplies by alpha. -/
def premul (c : StraightColor α) : Color α := ⟨c.r * c.a, c.g * c.a, c.b * c.a, c.a⟩

end StraightColor

end PixelEffect
