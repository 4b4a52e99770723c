import PixelEffect.Description.Basic
import PixelEffect.Json.Writer

namespace PixelEffect

namespace ColorSpec

def toJson : ColorSpec → Json
  | list c => .ofSingles c.toList
  | fields c =>
    .object [("r", .ofSingle c.r), ("g", .ofSingle c.g), ("b", .ofSingle c.b),
      ("a", .ofSingle c.a)]

end ColorSpec

namespace MatrixSpec

def toJson : MatrixSpec → Json
  | rows m => .ofSingles m.toList
  | affine m => .array (m.toList.map Json.ofDouble)

end MatrixSpec

namespace Description

/-- An effect with its parameters, given in the order of their names. -/
def objectOf (name : EffectName) (parameters : List Json) : Json :=
  .object (("kind", .string name.text) :: name.fields.zip parameters)

mutual

def toJson : Description → Json
  | color c => objectOf .color [c.toJson]
  | destColor => objectOf .destColor []
  | overrideInput child c useUniform =>
    objectOf .overrideInput [childJson child, c.toJson, .bool useUniform]
  | swizzle child s => objectOf .swizzle [childJson child, .string s]
  | premul child => objectOf .premul [childJson child]
  | compose f g => objectOf .compose [childJson f, childJson g]
  | blend source destination mode behavior =>
    objectOf .blend
      [childJson source, childJson destination, .string mode.name, .string behavior.name]
  | mulChildByInputAlpha child => objectOf .mulChildByInputAlpha [childJson child]
  | mulInputByChildAlpha child => objectOf .mulInputByChildAlpha [childJson child]
  | modulateAlpha child c => objectOf .modulateAlpha [childJson child, c.toJson]
  | modulateRgba child c => objectOf .modulateRgba [childJson child, c.toJson]
  | colorMatrix child coefficients unpremulInput clampRgbOutput premulOutput =>
    objectOf .colorMatrix
      [childJson child, .ofSingles coefficients, .bool unpremulInput, .bool clampRgbOutput,
        .bool premulOutput]
  | clamp child toAlpha => objectOf .clamp [childJson child, .bool toAlpha]
  | deviceSpace child => objectOf .deviceSpace [childJson child]
  | matrix child m => objectOf .matrix [childJson child, m.toJson]
  | linearGradient start finish c d =>
    objectOf .linearGradient
      [.ofSingles start.toList, .ofSingles finish.toList, .array [c.toJson, d.toJson]]

def childJson : Option Description → Json
  | none => .null
  | some child => toJson child

end

def toText (d : Description) : String := d.toJson.pretty

end Description

end PixelEffect
