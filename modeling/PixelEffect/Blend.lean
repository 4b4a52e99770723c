import PixelEffect.Color

namespace PixelEffect

/-- Porter-Duff and separable blend modes. The constructors are in the order of their numbers in
program keys. -/
inductive BlendMode
  | clear
  | src
  | dst
  | srcOver
  | dstOver
  | srcIn
  | dstIn
  | srcOut
  | dstOut
  | srcATop
  | dstATop
  | xor
  | plus
  | modulate
  | screen
deriving DecidableEq

namespace BlendMode

def all : List BlendMode :=
  [clear, src, dst, srcOver, dstOver, srcIn, dstIn, srcOut, dstOut, srcATop, dstATop, xor, plus,
    modulate, screen]

/-- The number of the mode in a program key. -/
def code (mode : BlendMode) : UInt32 := (all.idxOf mode).toUInt32

/-- The name in descriptions. -/
def name : BlendMode → String
  | clear => "clear"
  | src => "src"
  | dst => "dst"
  | srcOver => "src_over"
  | dstOver => "dst_over"
  | srcIn => "src_in"
  | dstIn => "dst_in"
  | srcOut => "src_out"
  | dstOut => "dst_out"
  | srcATop => "src_a_top"
  | dstATop => "dst_a_top"
  | xor => "xor"
  | plus => "plus"
  | modulate => "modulate"
  | screen => "screen"

def ofName? (name : String) : Option BlendMode := all.find? (·.name = name)

/-- The name in dumps. -/
def title : BlendMode → String
  | clear => "Clear"
  | src => "Src"
  | dst => "Dst"
  | srcOver => "SrcOver"
  | dstOver => "DstOver"
  | srcIn => "SrcIn"
  | dstIn => "DstIn"
  | srcOut => "SrcOut"
  | dstOut => "DstOut"
  | srcATop => "SrcATop"
  | dstATop => "DstATop"
  | xor => "Xor"
  | plus => "Plus"
  | modulate => "Modulate"
  | screen => "Screen"

/-- Blends the source `s` with the destination `d`. -/
def apply {α : Type} [Scalar α] (mode : BlendMode) (s d : Color α) : Color α :=
  match mode with
  | clear => .transparent
  | src => s
  | dst => d
  | srcOver => s.add (d.scale (1 - s.a))
  | dstOver => d.add (s.scale (1 - d.a))
  | srcIn => s.scale d.a
  | dstIn => d.scale s.a
  | srcOut => s.scale (1 - d.a)
  | dstOut => d.scale (1 - s.a)
  | srcATop => (s.scale d.a).add (d.scale (1 - s.a))
  | dstATop => (d.scale s.a).add (s.scale (1 - d.a))
  | xor => (s.scale (1 - d.a)).add (d.scale (1 - s.a))
  | plus => (s.add d).map Scalar.atMostOne
  | modulate => s.mul d
  | screen => (s.add d).add ((s.mul d).scale (-1))

/-- Whether blending keeps an opaque input opaque, given which operands do. -/
def keepsOpaque (mode : BlendMode) (source destination : Bool) : Bool :=
  match mode with
  | srcIn | dstIn | modulate => source && destination
  | srcOver | dstOver | plus | screen => source || destination
  | srcATop | dst => destination
  | dstATop | src => source
  | clear | srcOut | dstOut | xor => false

end BlendMode

/-- How the operands of a blend see the input color. The constructors are in the order of their
numbers in program keys. -/
inductive BlendBehavior
  /-- `composeTwo` with both operands, `composeOne` with one, `skMode` with none. -/
  | default
  /-- One operand is the input color, the other one is sampled with opaque white. -/
  | composeOne
  /-- Both operands are sampled with opaque white and the result is scaled by the input alpha. -/
  | composeTwo
  /-- Both operands see the input color, and an absent operand is the input color. -/
  | skMode
deriving DecidableEq

namespace BlendBehavior

def all : List BlendBehavior := [default, composeOne, composeTwo, skMode]

/-- The number of the behavior in a program key. -/
def code (behavior : BlendBehavior) : UInt32 := (all.idxOf behavior).toUInt32

/-- The name in descriptions. -/
def name : BlendBehavior → String
  | default => "default"
  | composeOne => "compose_one"
  | composeTwo => "compose_two"
  | skMode => "sk_mode"

def ofName? (name : String) : Option BlendBehavior := all.find? (·.name = name)

/-- The name in dumps. -/
def title : BlendBehavior → String
  | default => "Default"
  | composeOne => "ComposeOne"
  | composeTwo => "ComposeTwo"
  | skMode => "SkMode"

/-- What the default behavior stands for, given which operands are present. -/
def resolve (behavior : BlendBehavior) (source destination : Bool) : BlendBehavior :=
  match behavior, source, destination with
  | default, true, true => composeTwo
  | default, false, false => skMode
  | default, _, _ => composeOne
  | behavior, _, _ => behavior

/-- The color that the operands are sampled with. -/
def probe {α : Type} [Scalar α] (behavior : BlendBehavior) (input : Color α) : Color α :=
  match behavior with
  | skMode => input
  | _ => .white

end BlendBehavior

/-- Blends operands that are already evaluated. An absent operand is the input color. -/
def blendOutputs {α : Type} [Scalar α] (mode : BlendMode) (behavior : BlendBehavior)
    (source destination : Option (Color α)) (input : Color α) : Color α :=
  let out := mode.apply (source.getD input) (destination.getD input)
  match behavior with
  | .composeTwo => out.scale input.a
  | _ => out

end PixelEffect
