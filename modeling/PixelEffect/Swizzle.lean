import PixelEffect.Color
import PixelEffect.Error

namespace PixelEffect

/-- Where one output channel comes from. -/
inductive Channel
  | r
  | g
  | b
  | a
  | zero
  | one
deriving DecidableEq

namespace Channel

def ofChar? : Char → Option Channel
  | 'r' => some r
  | 'g' => some g
  | 'b' => some b
  | 'a' => some a
  | '0' => some zero
  | '1' => some one
  | _ => none

def toChar : Channel → Char
  | r => 'r'
  | g => 'g'
  | b => 'b'
  | a => 'a'
  | zero => '0'
  | one => '1'

def pick {α : Type} [Scalar α] (c : Color α) : Channel → α
  | r => c.r
  | g => c.g
  | b => c.b
  | a => c.a
  | zero => 0
  | one => 1

/-- The number of the channel in a program key. -/
def code : Channel → UInt32
  | r => 0
  | g => 1
  | b => 2
  | a => 3
  | zero => 4
  | one => 5

end Channel

/-- The sources of the four output channels. -/
structure Swizzle where
  r : Channel
  g : Channel
  b : Channel
  a : Channel
deriving DecidableEq

namespace Swizzle

def identity : Swizzle := ⟨.r, .g, .b, .a⟩

def toList (s : Swizzle) : List Channel := [s.r, s.g, s.b, s.a]

def text (s : Swizzle) : String := String.ofList (s.toList.map Channel.toChar)

/-- Reads four characters; the first one that names no channel is reported. -/
def ofText (text : String) : Except Error Swizzle := do
  let channel (c : Char) : Except Error Channel :=
    match Channel.ofChar? c with
    | some channel => .ok channel
    | none => .error (.validation (.swizzleChannel text c))
  match text.toList with
  | [r, g, b, a] => return ⟨← channel r, ← channel g, ← channel b, ← channel a⟩
  | _ => .error (.validation (.swizzleLength text))

def apply {α : Type} [Scalar α] (s : Swizzle) (c : Color α) : Color α :=
  ⟨s.r.pick c, s.g.pick c, s.b.pick c, s.a.pick c⟩

/-- Four bits per channel, the first channel lowest. -/
def code (s : Swizzle) : UInt32 :=
  s.r.code ||| s.g.code <<< 4 ||| s.b.code <<< 8 ||| s.a.code <<< 12

/-- An opaque color stays opaque if alpha is kept or set to one. -/
def keepsOpaque (s : Swizzle) : Bool := s.a = .a || s.a = .one

end Swizzle

end PixelEffect
