import PixelEffect.Node.Traversal

namespace PixelEffect.Node

/-- One line that names the node and its parameters. -/
def info (n : Node) : String := n.kind.info

/-- The start of the line of slot `i`. -/
def slotLine (depth i : Nat) : String :=
  "\n" ++ String.ofList (List.replicate depth '\t') ++ "(#" ++ toString i ++ ") -> "

mutual

/-- The slots of a node on lines of their own, each with the tree in it, indented by tabs. -/
def slotLines (depth : Nat) : Node → String
  | mk _ slots => slotLinesFrom depth 0 slots

def slotLinesFrom (depth i : Nat) : List (Option Node) → String
  | [] => ""
  | none :: rest => slotLine depth i ++ "null" ++ slotLinesFrom depth (i + 1) rest
  | some child :: rest =>
    slotLine depth i ++ child.info ++ slotLines (depth + 1) child
      ++ slotLinesFrom depth (i + 1) rest

end

/-- A tree as text, one line per node or empty slot. -/
def dump (n : Node) : String := n.info ++ slotLines 1 n ++ "\n"

/-- The start of a text filled up with blanks. -/
def padRight (width : Nat) (text : String) : String :=
  text ++ String.ofList (List.replicate (width - text.length) ' ')

def padLeft (width : Nat) (text : String) : String :=
  String.ofList (List.replicate (width - text.length) ' ') ++ text

/-- One line about the node at place `i` of a walk. -/
def walkLine (i : Nat) (n : Node) : String :=
  padLeft 3 (toString i) ++ " " ++ padRight 16 n.name ++ " flags=" ++ n.flags.text ++ " opt="
    ++ n.optimizations.text ++ "\n"

/-- The nodes of a tree in the order of a walk, one line each. -/
def walkLines (n : Node) : String :=
  String.join ((Walk.ofRoots [n]).toList.zipIdx.map fun (node, i) => walkLine i node)

end PixelEffect.Node
