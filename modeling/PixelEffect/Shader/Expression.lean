import PixelEffect.Shader.Uniform

namespace PixelEffect.Shader

/-- Values that a function names for later use. -/
inductive Local
  | a
  | c
  | d
  | g
  | p
  | s
  | t
deriving DecidableEq

def Local.text : Local → String
  | a => "a"
  | c => "c"
  | d => "d"
  | g => "g"
  | p => "p"
  | s => "s"
  | t => "t"

/-- What an expression names: the parameters of a function, what the renderer provides, and
locals. -/
inductive Variable
  /-- The input color of the function. -/
  | input
  /-- The sample coordinate of the function. -/
  | coords
  /-- The position of the fragment. -/
  | fragCoord
  /-- The color at the destination. -/
  | destColor
  | named (x : Local)
deriving DecidableEq

def Variable.text : Variable → String
  | input => "_input"
  | coords => "_coords"
  | fragCoord => "sk_frag_coord"
  | destColor => "sk_dst_color"
  | named x => x.text

/-- The components of a vector by their names as a color and as a point. -/
inductive Component
  | r
  | g
  | b
  | a
  | x
  | y
  | z
deriving DecidableEq

def Component.toChar : Component → Char
  | r => 'r'
  | g => 'g'
  | b => 'b'
  | a => 'a'
  | x => 'x'
  | y => 'y'
  | z => 'z'

/-- The place of the component in a vector. -/
def Component.index : Component → Nat
  | r | x => 0
  | g | y => 1
  | b | z => 2
  | a => 3

/-- The binary operators of the language. -/
inductive Operator
  | equal
  | add
  | sub
  | mul
  | div
deriving DecidableEq

namespace Operator

def text : Operator → String
  | equal => "=="
  | add => "+"
  | sub => "-"
  | mul => "*"
  | div => "/"

/-- Operators of a higher level bind tighter; those of one level group to the left. -/
def level : Operator → Nat
  | equal => 0
  | add | sub => 1
  | mul | div => 2

end Operator

/-- Functions of the language. -/
inductive Builtin
  | vec3
  | vec4
  | saturate
  | min
  | max
  | clamp
  | dot
  | select
  | mix
deriving DecidableEq

def Builtin.text : Builtin → String
  | vec3 => "vec3<f32>"
  | vec4 => "vec4<f32>"
  | saturate => "saturate"
  | min => "min"
  | max => "max"
  | clamp => "clamp"
  | dot => "dot"
  | select => "select"
  | mix => "mix"

/-- Expressions of the part of the shading language that generated functions are written in. -/
inductive Expression
  | literal (x : Single)
  | var (x : Variable)
  | uniform (name : UniformName)
  /-- Some components of a vector, in the given order. -/
  | components (e : Expression) (cs : List Component)
  | binary (op : Operator) (left right : Expression)
  /-- An expression in parentheses. -/
  | group (e : Expression)
  | builtin (f : Builtin) (arguments : List Expression)
  /-- The output of a generated function for a color and a coordinate. -/
  | call (f : FunctionName) (input coords : Expression)

namespace Expression

instance : Add Expression := ⟨binary .add⟩
instance : Sub Expression := ⟨binary .sub⟩
instance : Mul Expression := ⟨binary .mul⟩
instance : Div Expression := ⟨binary .div⟩

/-- The level of operators that the expression can be an operand of without parentheses. -/
def level : Expression → Nat
  | binary op _ _ => op.level
  | _ => 3

/-- The text of a literal. A number without point and exponent gets a fraction. -/
def literalText (x : Single) : String :=
  let text := NumberStyle.floating.text x
  if text.contains '.' || text.contains 'e' then text else text ++ ".0"

/-- Puts a text in parentheses if its level is below the one asked for. -/
def enclose (asked level : Nat) (text : String) : String :=
  if level < asked then "(" ++ text ++ ")" else text

mutual

/-- The text of an expression. Operands that bind less tightly than their place asks for stand in
parentheses. -/
def text : Expression → String
  | literal x => literalText x
  | var x => x.text
  | uniform name => "u." ++ name.text
  | components e cs =>
    enclose 3 e.level e.text ++ "." ++ String.ofList (cs.map Component.toChar)
  | binary op left right =>
    enclose op.level left.level left.text ++ " " ++ op.text ++ " "
      ++ enclose (op.level + 1) right.level right.text
  | group e => "(" ++ e.text ++ ")"
  | builtin f arguments => f.text ++ "(" ++ ", ".intercalate (texts arguments) ++ ")"
  | call f input coords => f.text ++ "(" ++ input.text ++ ", " ++ coords.text ++ ")"

def texts : List Expression → List String
  | [] => []
  | e :: rest => e.text :: texts rest

end

end Expression

/-- The statements that the bodies of functions consist of. -/
inductive Statement
  /-- Names a value that does not change. -/
  | declare (x : Local) (e : Expression)
  /-- Names a value that may be assigned to later. -/
  | declareVar (x : Local) (e : Expression)
  | assign (x : Local) (e : Expression)
  /-- Assigns to one component of a vector. -/
  | assignComponent (x : Local) (c : Component) (e : Expression)
  | result (e : Expression)

def Statement.text : Statement → String
  | declare x e => "let " ++ x.text ++ " = " ++ e.text ++ ";"
  | declareVar x e => "var " ++ x.text ++ " = " ++ e.text ++ ";"
  | assign x e => x.text ++ " = " ++ e.text ++ ";"
  | assignComponent x c e =>
    x.text ++ "." ++ String.singleton c.toChar ++ " = " ++ e.text ++ ";"
  | result e => "return " ++ e.text ++ ";"

end PixelEffect.Shader
