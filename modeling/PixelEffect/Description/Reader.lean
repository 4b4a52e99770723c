import PixelEffect.Description.Basic
import PixelEffect.Json.Fields
import PixelEffect.Json.Reader

namespace PixelEffect

/-- A point, written as a list of its coordinates. -/
def Point.ofJson? (v : Json) : Option Point := do
  match ← v.toSingles? with
  | [x, y] => return ⟨x, y⟩
  | _ => none

namespace ColorSpec

def ofJson? : Json → Option ColorSpec
  | .object members => do
    let fields ← Fields.select ["r", "g", "b", "a"] members
    let r ← fields.required "r" Json.toSingle?
    let g ← fields.required "g" Json.toSingle?
    let b ← fields.required "b" Json.toSingle?
    let a ← fields.optional "a" Json.toSingle? 1
    return .fields ⟨r, g, b, a⟩
  | v => do
    match ← v.toSingles? with
    | [r, g, b, a] => return .list ⟨r, g, b, a⟩
    | _ => none

/-- The two colors of a gradient. -/
def pairOfJson? : Json → Option (ColorSpec × ColorSpec)
  | .array [c, d] => do return (← ofJson? c, ← ofJson? d)
  | _ => none

end ColorSpec

namespace MatrixSpec

def ofJson? : Json → Option MatrixSpec
  | .array [xx, xy, xt, yx, yy, yt, wx, wy, wt] => do
    match ← [xx, xy, xt, yx, yy, yt, wx, wy, wt].mapM Json.toSingle? with
    | [xx, xy, xt, yx, yy, yt, wx, wy, wt] =>
      return .rows ⟨xx, xy, xt, yx, yy, yt, wx, wy, wt⟩
    | _ => none
  | .array [a, b, c, d, e, f] => do
    match ← [a, b, c, d, e, f].mapM Json.toDouble? with
    | [a, b, c, d, e, f] => return .affine ⟨a, b, c, d, e, f⟩
    | _ => none
  | _ => none

end MatrixSpec

namespace EffectName

/-- Reads the name of an effect. Inside another description its number will do as well. -/
def ofJson? (nested : Bool) : Json → Option EffectName
  | .string text => ofText? text
  | .number n =>
    match JsonNumber.ofNumeral n with
    | some (.integer (.ofNat i)) => if nested then all[i]? else none
    | _ => none
  | _ => none

end EffectName

namespace Description

/-- A value, and the description that it would be as an operand: `none` if it cannot be one, and
`some none` if it says that there is none. -/
structure Parameter where
  value : Json
  operand : Option (Option Description)

namespace Parameter

/-- A parameter that is an operand. -/
def operandOf (fields : Fields Parameter) (name : String) : Option (Option Description) :=
  fields.optional name Parameter.operand none

def valueOf {α : Type} (fields : Fields Parameter) (name : String) (read : Json → Option α) :
    Option α :=
  fields.required name fun parameter => read parameter.value

def flagOf (fields : Fields Parameter) (name : String) : Option Bool :=
  fields.optional name (fun parameter => parameter.value.toBool?) false

end Parameter

open Parameter in
/-- The effect with the given parameters. -/
def ofFields (name : EffectName) (fields : Fields Parameter) : Option Description :=
  match name with
  | .color => do return color (← valueOf fields "color" ColorSpec.ofJson?)
  | .destColor => some destColor
  | .overrideInput => do
    return overrideInput (← operandOf fields "child") (← valueOf fields "color" ColorSpec.ofJson?)
      (← flagOf fields "use_uniform")
  | .swizzle => do
    return swizzle (← operandOf fields "child") (← valueOf fields "swizzle" Json.toText?)
  | .premul => do return premul (← operandOf fields "child")
  | .compose => do return compose (← operandOf fields "f") (← operandOf fields "g")
  | .blend => do
    return blend (← operandOf fields "src") (← operandOf fields "dst")
      (← valueOf fields "mode" (Json.toChoice? BlendMode.ofName?))
      (← fields.optional "behavior"
        (fun parameter => parameter.value.toChoice? BlendBehavior.ofName?) .default)
  | .mulChildByInputAlpha => do return mulChildByInputAlpha (← operandOf fields "child")
  | .mulInputByChildAlpha => do return mulInputByChildAlpha (← operandOf fields "child")
  | .modulateAlpha => do
    return modulateAlpha (← operandOf fields "child") (← valueOf fields "color" ColorSpec.ofJson?)
  | .modulateRgba => do
    return modulateRgba (← operandOf fields "child") (← valueOf fields "color" ColorSpec.ofJson?)
  | .colorMatrix => do
    return colorMatrix (← operandOf fields "child") (← valueOf fields "matrix" Json.toSingles?)
      (← flagOf fields "unpremul_input") (← flagOf fields "clamp_rgb_output")
      (← flagOf fields "premul_output")
  | .clamp => do return clamp (← operandOf fields "child") (← flagOf fields "premul")
  | .deviceSpace => do return deviceSpace (← operandOf fields "child")
  | .matrix => do
    return matrix (← operandOf fields "child") (← valueOf fields "matrix" MatrixSpec.ofJson?)
  | .linearGradient => do
    let start ← valueOf fields "start" Point.ofJson?
    let finish ← valueOf fields "end" Point.ofJson?
    let (c, d) ← valueOf fields "colors" ColorSpec.pairOfJson?
    return linearGradient start finish c d

/-- An effect written as an object. There is exactly one `kind`; members that are no parameters
are ignored. -/
def ofMembers (nested : Bool) (members : List (String × Parameter)) : Option Description := do
  match members.filter (·.1 = "kind") with
  | [(_, kind)] =>
    let name ← EffectName.ofJson? nested kind.value
    ofFields name (← Fields.select name.fields members)
  | _ => none

/-- An effect written as an array. -/
def ofItems (nested : Bool) (items : List Parameter) : Option Description := do
  match items with
  | kind :: parameters =>
    let name ← EffectName.ofJson? nested kind.value
    ofFields name (← Fields.ofItems name.fields parameters)
  | [] => none

mutual

/-- Reads a value as an operand. -/
def operandOfJson? : Json → Option (Option Description)
  | .null => some none
  | .object members => some <$> ofMembers true (parametersOfMembers members)
  | .array items => some <$> ofItems true (parametersOfItems items)
  | _ => none

def parametersOfItems : List Json → List Parameter
  | [] => []
  | item :: rest => ⟨item, operandOfJson? item⟩ :: parametersOfItems rest

def parametersOfMembers : List (String × Json) → List (String × Parameter)
  | [] => []
  | (name, v) :: rest => (name, ⟨v, operandOfJson? v⟩) :: parametersOfMembers rest

end

/-- Reads a description that is not part of another one. It is an object with the name of the effect
as `kind` and the parameters as members, or an array of the name and the parameters in order. -/
def ofJson? : Json → Option Description
  | .object members => ofMembers false (parametersOfMembers members)
  | .array items => ofItems false (parametersOfItems items)
  | _ => none

/-- Reads the text of a description. -/
def ofText (text : String) : Except Error Description :=
  match (Json.ofText text).bind ofJson? with
  | some d => .ok d
  | none => .error .unreadable

end Description

end PixelEffect
