import PixelEffect.Json.Fields
import PixelEffect.Json.Reader
import PixelEffect.Shader.Options

namespace PixelEffect

namespace ProgramOptions

/-- The names of the options in order. -/
def fields : List String := ["entry_point", "uniform_group", "uniform_binding", "allow_dst_read"]

def ofFields (given : Fields Json) : Option ProgramOptions := do
  return {
    entryPoint := ← given.optional "entry_point" Json.toText? standard.entryPoint
    uniformGroup := ← given.optional "uniform_group" Json.toUInt32? standard.uniformGroup
    uniformBinding := ← given.optional "uniform_binding" Json.toUInt32? standard.uniformBinding
    allowDestinationRead :=
      ← given.optional "allow_dst_read" Json.toBool? standard.allowDestinationRead }

/-- Reads options. Unlike in descriptions, unknown members are refused. -/
def ofJson? : Json → Option ProgramOptions
  | .object members => do
    let given ← Fields.select fields members
    if given.length = members.length then ofFields given else none
  | .array items => do ofFields (← Fields.ofItems fields items)
  | _ => none

/-- Reads the text of options and checks them. -/
def ofText (text : String) : Except Error ProgramOptions := do
  match (Json.ofText text).bind ofJson? with
  | some o =>
    o.validate
    return o
  | none => throw .unreadable

end ProgramOptions

end PixelEffect
