import PixelEffect.Blend
import PixelEffect.ColorMatrix
import PixelEffect.Decimal.Numeral
import PixelEffect.Matrix
import PixelEffect.Swizzle

namespace PixelEffect

/-- What kind of effect a node is, without its parameters. -/
inductive EffectClass
  | color
  | overrideInput
  | destColor
  | swizzle
  | premul
  | compose
  | blend
  | colorMatrix
  | clamp
  | deviceSpace
  | matrix
  | linearGradient
deriving DecidableEq

namespace EffectClass

/-- The number of the class in program keys. -/
def code : EffectClass → UInt32
  | color => 1
  | overrideInput => 2
  | destColor => 3
  | swizzle => 4
  | premul => 5
  | compose => 6
  | blend => 7
  | colorMatrix => 8
  | clamp => 9
  | deviceSpace => 10
  | matrix => 11
  | linearGradient => 12

def title : EffectClass → String
  | color => "Color"
  | overrideInput => "OverrideInput"
  | destColor => "DestColor"
  | swizzle => "Swizzle"
  | premul => "Premul"
  | compose => "Compose"
  | blend => "Blend"
  | colorMatrix => "ColorMatrix"
  | clamp => "Clamp"
  | deviceSpace => "DeviceSpace"
  | matrix => "Matrix"
  | linearGradient => "LinearGradient"

end EffectClass

/-- An effect without its children. Two kinds are equal exactly if all their parameters are the
same bit by bit. -/
inductive Kind
  /-- Ignores the input and yields a color. -/
  | color (color : Color Single)
  /-- Evaluates the child with a color instead of the input. A specialized color is part of the
  program, any other one is a uniform. -/
  | overrideInput (color : Color Single) (specialized : Bool)
  /-- Reads the destination color. -/
  | destColor
  /-- Permutes the channels of the child. -/
  | swizzle (swizzle : Swizzle)
  /-- Samples the child with opaque white and multiplies by the premultiplied input. -/
  | premul
  /-- Applies the first child to the output of the second. -/
  | compose
  /-- Blends the first child with the second. An absent one is the input color. -/
  | blend (mode : BlendMode) (behavior : BlendBehavior)
  /-- Transforms the output of the child. -/
  | colorMatrix (matrix : ColorMatrix)
  /-- Brings the child's alpha into `[0, 1]`, and its rgb into `[0, alpha]` if `premul`, else also
  into `[0, 1]`. -/
  | clamp (premul : Bool)
  /-- Samples the child at the position of the fragment. -/
  | deviceSpace
  /-- Samples the child at the local coordinate mapped through a matrix. -/
  | matrix (matrix : Matrix3)
  /-- Passes from one color to another along the segment from `start` to `finish`. -/
  | linearGradient (start finish : Point) (startColor finishColor : Color Single)
deriving DecidableEq

/-- The text of a color in a dump. -/
def Color.text (c : Color Single) : String :=
  "r=" ++ NumberStyle.plain.text c.r ++ ", g=" ++ NumberStyle.plain.text c.g
    ++ ", b=" ++ NumberStyle.plain.text c.b ++ ", a=" ++ NumberStyle.plain.text c.a

namespace Kind

def effectClass : Kind → EffectClass
  | color _ => .color
  | overrideInput .. => .overrideInput
  | destColor => .destColor
  | swizzle _ => .swizzle
  | premul => .premul
  | compose => .compose
  | blend .. => .blend
  | colorMatrix _ => .colorMatrix
  | clamp _ => .clamp
  | deviceSpace => .deviceSpace
  | matrix _ => .matrix
  | linearGradient .. => .linearGradient

/-- The name of an effect in dumps and messages. -/
def name : Kind → String
  | premul => "Premultiply"
  | clamp true => "ClampPremul"
  | kind => kind.effectClass.title

/-- Reads the sample coordinate itself. -/
def usesCoords : Kind → Bool
  | linearGradient .. => true
  | _ => false

/-- Reads the destination color itself. -/
def readsDestination : Kind → Bool
  | destColor => true
  | _ => false

/-- Asks for the position of the fragment itself. -/
def usesFragCoord : Kind → Bool
  | deviceSpace => true
  | _ => false

/-- The parameters as a dump shows them. -/
def parameters : Kind → String
  | color c => c.text
  | overrideInput c specialized => c.text ++ ", specialized=" ++ toString specialized
  | swizzle s => s.text
  | blend mode behavior => mode.title ++ ", " ++ behavior.title
  | colorMatrix m =>
    "unpremul_input=" ++ toString m.unpremulInput ++ ", clamp_rgb_output="
      ++ toString m.clampRgbOutput ++ ", premul_output=" ++ toString m.premulOutput
  | matrix m => NumberStyle.floating.listText m.toList
  | linearGradient start finish c d =>
    NumberStyle.floating.listText start.toList ++ " -> "
      ++ NumberStyle.floating.listText finish.toList ++ ", " ++ c.text ++ " -> " ++ d.text
  | destColor | premul | compose | clamp _ | deviceSpace => ""

/-- One line that names the effect and its parameters. -/
def info (kind : Kind) : String :=
  let parameters := kind.parameters
  if parameters.isEmpty then kind.name else kind.name ++ "(" ++ parameters ++ ")"

end Kind

end PixelEffect
