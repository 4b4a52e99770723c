import PixelEffect.Kind

namespace PixelEffect

/-- A color in a description, as a list of four numbers or as an object with names. -/
inductive ColorSpec
  | list (c : Color Single)
  | fields (c : Color Single)
deriving DecidableEq

/-- A transform of coordinates in a description, as the nine coefficients of a matrix or as the
six of an affine map. -/
inductive MatrixSpec
  | rows (m : Matrix3)
  | affine (m : Affine)
deriving DecidableEq

/-- A tree of effects. A missing operand is `none`. -/
inductive Description
  | color (color : ColorSpec)
  | destColor
  | overrideInput (child : Option Description) (color : ColorSpec) (useUniform : Bool)
  | swizzle (child : Option Description) (swizzle : String)
  | premul (child : Option Description)
  | compose (f g : Option Description)
  | blend (source destination : Option Description) (mode : BlendMode)
      (behavior : BlendBehavior)
  | mulChildByInputAlpha (child : Option Description)
  | mulInputByChildAlpha (child : Option Description)
  | modulateAlpha (child : Option Description) (color : ColorSpec)
  | modulateRgba (child : Option Description) (color : ColorSpec)
  | colorMatrix (child : Option Description) (matrix : List Single)
      (unpremulInput clampRgbOutput premulOutput : Bool)
  | clamp (child : Option Description) (premul : Bool)
  | deviceSpace (child : Option Description)
  | matrix (child : Option Description) (matrix : MatrixSpec)
  | linearGradient (start finish : Point) (startColor finishColor : ColorSpec)

namespace ColorSpec

def toColor : ColorSpec → Color Single
  | list c | fields c => c

/-- The color, which has to be finite. -/
def validate (c : ColorSpec) : Except Error (Color Single) := c.toColor.validate

end ColorSpec

namespace MatrixSpec

def toMatrix3 : MatrixSpec → Matrix3
  | rows m => m
  | affine m => m.toMatrix3

/-- The matrix, which has to be finite in single precision. -/
def validate (m : MatrixSpec) : Except Error Matrix3 := m.toMatrix3.validate

end MatrixSpec

/-- Numerical equality of lists of numbers. -/
def numericallyEqual {fmt : Float.Model.Format} : List (Ieee fmt) → List (Ieee fmt) → Bool
  | [], [] => true
  | x :: xs, y :: ys => x.eq y && numericallyEqual xs ys
  | _, _ => false

def ColorSpec.agrees : ColorSpec → ColorSpec → Bool
  | list c, list d | fields c, fields d => numericallyEqual c.toList d.toList
  | _, _ => false

def MatrixSpec.agrees : MatrixSpec → MatrixSpec → Bool
  | rows m, rows n => numericallyEqual m.toList n.toList
  | affine m, affine n => numericallyEqual m.toList n.toList
  | _, _ => false

namespace Description

mutual

/-- Equality of descriptions, where numbers are compared by their values. -/
def agrees : Description → Description → Bool
  | color c, color d => c.agrees d
  | destColor, destColor => true
  | overrideInput x c u, overrideInput y d v => agreesOperand x y && c.agrees d && u == v
  | swizzle x s, swizzle y t => agreesOperand x y && s == t
  | premul x, premul y => agreesOperand x y
  | compose f g, compose f' g' => agreesOperand f f' && agreesOperand g g'
  | blend s d m b, blend s' d' m' b' =>
    agreesOperand s s' && agreesOperand d d' && m = m' && b = b'
  | mulChildByInputAlpha x, mulChildByInputAlpha y => agreesOperand x y
  | mulInputByChildAlpha x, mulInputByChildAlpha y => agreesOperand x y
  | modulateAlpha x c, modulateAlpha y d => agreesOperand x y && c.agrees d
  | modulateRgba x c, modulateRgba y d => agreesOperand x y && c.agrees d
  | colorMatrix x m u c p, colorMatrix y n v d q =>
    agreesOperand x y && numericallyEqual m n && u == v && c == d && p == q
  | clamp x p, clamp y q => agreesOperand x y && p == q
  | deviceSpace x, deviceSpace y => agreesOperand x y
  | matrix x m, matrix y n => agreesOperand x y && m.agrees n
  | linearGradient s e c d, linearGradient s' e' c' d' =>
    numericallyEqual s.toList s'.toList && numericallyEqual e.toList e'.toList
      && c.agrees c' && d.agrees d'
  | _, _ => false

def agreesOperand : Option Description → Option Description → Bool
  | none, none => true
  | some x, some y => agrees x y
  | _, _ => false

end

end Description

/-- The effects that a description can name. -/
inductive EffectName
  | color
  | destColor
  | overrideInput
  | swizzle
  | premul
  | compose
  | blend
  | mulChildByInputAlpha
  | mulInputByChildAlpha
  | modulateAlpha
  | modulateRgba
  | colorMatrix
  | clamp
  | deviceSpace
  | matrix
  | linearGradient
deriving DecidableEq

namespace EffectName

/-- The effects in the order of their numbers. -/
def all : List EffectName :=
  [color, destColor, overrideInput, swizzle, premul, compose, blend, mulChildByInputAlpha,
    mulInputByChildAlpha, modulateAlpha, modulateRgba, colorMatrix, clamp, deviceSpace, matrix,
    linearGradient]

def text : EffectName → String
  | color => "color"
  | destColor => "dest_color"
  | overrideInput => "override_input"
  | swizzle => "swizzle"
  | premul => "premul"
  | compose => "compose"
  | blend => "blend"
  | mulChildByInputAlpha => "mul_child_by_input_alpha"
  | mulInputByChildAlpha => "mul_input_by_child_alpha"
  | modulateAlpha => "modulate_alpha"
  | modulateRgba => "modulate_rgba"
  | colorMatrix => "color_matrix"
  | clamp => "clamp"
  | deviceSpace => "device_space"
  | matrix => "matrix"
  | linearGradient => "linear_gradient"

def ofText? (text : String) : Option EffectName := all.find? (·.text = text)

/-- The names of the parameters in order. -/
def fields : EffectName → List String
  | color => ["color"]
  | destColor => []
  | overrideInput => ["child", "color", "use_uniform"]
  | swizzle => ["child", "swizzle"]
  | premul | mulChildByInputAlpha | mulInputByChildAlpha | deviceSpace => ["child"]
  | compose => ["f", "g"]
  | blend => ["src", "dst", "mode", "behavior"]
  | modulateAlpha | modulateRgba => ["child", "color"]
  | colorMatrix => ["child", "matrix", "unpremul_input", "clamp_rgb_output", "premul_output"]
  | clamp => ["child", "premul"]
  | matrix => ["child", "matrix"]
  | linearGradient => ["start", "end", "colors"]

end EffectName

end PixelEffect
