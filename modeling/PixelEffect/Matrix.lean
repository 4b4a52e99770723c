import PixelEffect.Error
import PixelEffect.Number.Ieee

namespace PixelEffect

/-- A point of the plane. -/
structure Point where
  x : Single
  y : Single
deriving DecidableEq

def Point.toList (p : Point) : List Single := [p.x, p.y]

/-- A 3×3 matrix that acts on homogeneous coordinates. The fields are its rows: `xt` is the
offset of `x`, and the last row gives the number that points are divided by. -/
structure Matrix3 where
  xx : Single
  xy : Single
  xt : Single
  yx : Single
  yy : Single
  yt : Single
  wx : Single
  wy : Single
  wt : Single
deriving DecidableEq

namespace Matrix3

def identity : Matrix3 := ⟨1, 0, 0, 0, 1, 0, 0, 0, 1⟩

/-- The coefficients row by row. -/
def toList (m : Matrix3) : List Single :=
  [m.xx, m.xy, m.xt, m.yx, m.yy, m.yt, m.wx, m.wy, m.wt]

/-- The coefficients column by column. -/
def columns (m : Matrix3) : List Single :=
  [m.xx, m.yx, m.wx, m.xy, m.yy, m.wy, m.xt, m.yt, m.wt]

def isFinite (m : Matrix3) : Bool := m.toList.all Ieee.isFinite

/-- A matrix that comes from outside has to be finite. -/
def validate (m : Matrix3) : Except Error Matrix3 :=
  if m.isFinite then .ok m else .error (.validation .matrixNotFinite)

/-- A matrix has perspective unless its last row is `0 0 1`. -/
def hasPerspective (m : Matrix3) : Bool := !m.wx.eq 0 || !m.wy.eq 0 || !m.wt.eq 1

/-- Maps a point and divides by its third coordinate. A point at infinity is not divided. -/
def mapPoint (m : Matrix3) (p : Point) : Point :=
  let x := m.xx * p.x + m.xy * p.y + m.xt
  let y := m.yx * p.x + m.yy * p.y + m.yt
  let w := m.wx * p.x + m.wy * p.y + m.wt
  if w.eq 0 then ⟨x, y⟩ else ⟨x / w, y / w⟩

end Matrix3

/-- The affine map `x' = a x + c y + e`, `y' = b x + d y + f`. -/
structure Affine where
  a : Double
  b : Double
  c : Double
  d : Double
  e : Double
  f : Double
deriving DecidableEq

namespace Affine

def toList (m : Affine) : List Double := [m.a, m.b, m.c, m.d, m.e, m.f]

/-- The same map in single precision. -/
def toMatrix3 (m : Affine) : Matrix3 :=
  ⟨m.a.toSingle, m.c.toSingle, m.e.toSingle, m.b.toSingle, m.d.toSingle, m.f.toSingle, 0, 0, 1⟩

end Affine

end PixelEffect
