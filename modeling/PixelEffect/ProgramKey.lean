import PixelEffect.Fingerprint
import PixelEffect.Node.Basic

namespace PixelEffect

/-- One field of a key. -/
inductive KeyField
  | word (w : UInt32)
  | flag (b : Bool)
  | number (x : Single)
deriving DecidableEq

def KeyField.toWord : KeyField → UInt32
  | word w => w
  | flag b => b.toUInt32
  | number x => x.toUInt32

/-- The parameters that select a program of their own. Values that reach the program as uniforms are
none of them. -/
def Kind.keyFields : Kind → List KeyField
  | overrideInput c specialized =>
    .flag specialized :: if specialized then c.toList.map .number else []
  | swizzle s => [.word s.code]
  | blend mode behavior => [.word mode.code, .word behavior.code]
  | colorMatrix m => [.flag m.unpremulInput, .flag m.clampRgbOutput, .flag m.premulOutput]
  | clamp toAlpha => [.flag toAlpha]
  | matrix m => [.flag m.hasPerspective]
  | color _ | destColor | premul | compose | deviceSpace | linearGradient .. => []

/-- The word that stands for an empty slot. -/
def emptySlotWord : UInt32 := 0xFFFFFFFF

namespace Node

mutual

/-- The key of a tree: class and coordinate use, the parameters, the number of slots, and for each
slot how the child is sampled and the child's own key. -/
def keyWords : Node → List UInt32
  | mk data slots =>
    data.kind.effectClass.code :: data.flags.usesCoordsDirectly.toUInt32
      :: data.kind.keyFields.map KeyField.toWord
      ++ slots.length.toUInt32 :: keyWordsOfSlots slots

def keyWordsOfSlots : List (Option Node) → List UInt32
  | [] => []
  | none :: rest => emptySlotWord :: keyWordsOfSlots rest
  | some child :: rest => child.sampling.code :: keyWords child ++ keyWordsOfSlots rest

end

end Node

/-- Equal keys select the same program. -/
structure ProgramKey where
  words : List UInt32
deriving DecidableEq

namespace ProgramKey

def ofFields (fields : List KeyField) : ProgramKey := ⟨fields.map KeyField.toWord⟩

def ofNode (n : Node) : ProgramKey := ⟨n.keyWords⟩

def fingerprint (k : ProgramKey) : Fingerprint := .ofWords k.words

end ProgramKey

end PixelEffect
