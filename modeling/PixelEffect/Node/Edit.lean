import PixelEffect.Error
import PixelEffect.Node.Basic

namespace PixelEffect.Node

/-- A way down from a node: the slots to take. -/
abbrev Path := List Nat

/-- The node at the end of a path. -/
def at? : Path → Node → Option Node
  | [], n => some n
  | i :: path, n => (n.child? i).bind (at? path)

/-- Replaces the node at the end of a path. A path that leads nowhere changes nothing. -/
def replaceAt (new : Node) : Path → Node → Node
  | [], _ => new
  | i :: path, n =>
    match n.child? i with
    | none => n
    | some child => mk n.data (n.slots.set i (some (replaceAt new path child)))

/-- Replaces the color of a node that is a color. Whether it is opaque cannot change, because the
nodes above may have drawn their conclusions from it. -/
def recolor (n : Node) (color : Color Single) : Except Error Node :=
  match n.kind with
  | .color current =>
    if current.isOpaque = color.isOpaque then
      .ok (mk { n.data with kind := .color color } n.slots)
    else .error (.validation .opacityWouldChange)
  | kind => .error (.validation (.noLiteralColor kind.name))

/-- Recolors the node at the end of a path: the tree afterwards, and whether the node has taken the
color. A color that is refused changes nothing, and nor does a path that leads nowhere. -/
def recolorAt (path : Path) (color : Color Single) (root : Node) : Node × Except Error Unit :=
  match root.at? path with
  | none => (root, .ok ())
  | some n =>
    match n.recolor color with
    | .ok m => (replaceAt m path root, .ok ())
    | .error e => (root, .error e)

end PixelEffect.Node
