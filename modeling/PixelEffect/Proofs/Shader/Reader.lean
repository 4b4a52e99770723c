import PixelEffect.Decimal.Reader
import PixelEffect.Proofs.Shader.Lexical
import PixelEffect.Proofs.Shader.Semantics

namespace PixelEffect

namespace Shader

/-- A number starts with a digit. -/
def startsNumber (w : List Char) : Bool := w.head?.any Char.isDigit

/-- A number goes on behind a point, and behind the sign of an exponent. -/
def goesOn (w : List Char) (c : Char) : Bool :=
  startsNumber w && (c = '.' || (c = '-' || c = '+') && w.getLast? = some 'e')

/-- Puts a token in front of others. The parts of a number become one word. -/
def Token.join : Token → List Token → List Token
  | .word w, .symbol c :: .word v :: rest =>
    if goesOn w c then .word (w ++ c :: v) :: rest else .word w :: .symbol c :: .word v :: rest
  | t, rest => t :: rest

def Token.isBlank : Token → Bool
  | word _ => false
  | symbol c => c = ' ' || c = '\n'

/-- The words, numbers and symbols of a text. Blanks only keep them apart. -/
def lexemes (text : String) : List Token :=
  ((tokens text.toList).foldr Token.join []).filter fun t => !t.isBlank

/-- A whole number in decimal, without zeros in front. -/
def number? (w : List Char) : Option UInt32 :=
  let x := UInt32.ofNat (Nat.ofDigitChars 10 w 0)
  if (toString x).toList = w then some x else none

end Shader

open Shader

/-- The name of a generated function is told by its number. -/
def FunctionName.ofWord? (w : List Char) : Option FunctionName :=
  let f : FunctionName := ⟨UInt32.ofNat (Nat.ofDigitChars 10 (w.drop 2) 0)⟩
  if f.text.toList = w then some f else none

def UniformRole.all : List UniformRole :=
  [color, linear, offset, mapping, start, finish, startColor, finishColor]

/-- In front of the underscore of a uniform stands the function that owns it. -/
def UniformName.ofWord? (w : List Char) : Option UniformName := do
  let owner ← FunctionName.ofWord? (w.takeWhile (· ≠ '_'))
  let role ← UniformRole.all.find? fun role => (UniformName.mk owner role).text.toList = w
  return ⟨owner, role⟩

/-- The types that are written like this in the language. -/
def UniformType.ofTokens? (ts : List Token) : Option UniformType :=
  [(lexemes "vec2<f32>", vec2), (lexemes "vec4<f32>", vec4), (lexemes "mat3x3<f32>", mat3),
    (lexemes "mat4x4<f32>", mat4)].lookup ts

namespace Shader

def Local.ofWord? (w : List Char) : Option Local :=
  [("a", a), ("c", c), ("d", d), ("g", g), ("p", p), ("s", s), ("t", t)].lookup (String.ofList w)

def Variable.ofWord? (w : List Char) : Option Variable :=
  [("_input", input), ("_coords", coords), ("sk_frag_coord", fragCoord),
      ("sk_dst_color", destColor)].lookup (String.ofList w)
    <|> (Local.ofWord? w).map named

def Component.ofChar? (char : Char) : Option Component :=
  [('r', r), ('g', g), ('b', b), ('a', a), ('x', x), ('y', y), ('z', z)].lookup char

def Operator.ofChar? (char : Char) : Option Operator :=
  [('+', add), ('-', sub), ('*', mul), ('/', div)].lookup char

/-- How tight the operators of the language bind. Those that bind alike group to the left. -/
def Operator.tightness : Operator → Nat
  | equal => 0
  | add | sub => 1
  | mul | div => 2

def Builtin.ofWord? (w : List Char) : Option Builtin :=
  [("vec3<f32>", vec3), ("vec4<f32>", vec4), ("saturate", saturate), ("min", min), ("max", max),
    ("clamp", clamp), ("dot", dot), ("select", select), ("mix", mix)].lookup (String.ofList w)

/-- The float nearest to a number that is written with a point or an exponent. -/
def literal? (w : List Char) : Option Expression :=
  if '.' ∈ w ∨ 'e' ∈ w then (Ieee.ofText (String.ofList w)).toOption.map .literal else none

/-- A number or a variable. -/
def operand? (w : List Char) : Option Expression :=
  if startsNumber w then literal? w else (Variable.ofWord? w).map .var

/-- What can be applied to arguments. -/
inductive Callee
  | builtin (f : Builtin)
  | function (f : FunctionName)

namespace Callee

/-- The functions of the language keep their meaning, whatever a program declares. -/
def ofWord? (w : List Char) : Option Callee :=
  (Builtin.ofWord? w).map builtin <|> (FunctionName.ofWord? w).map function

/-- A function of the program takes a color and a place. -/
def apply : Callee → List Expression → Option Expression
  | builtin f, arguments => some (.builtin f arguments)
  | function f, [input, coords] => some (.call f input coords)
  | function _, _ => none

end Callee

/-- What an operand that is being read belongs to. -/
inductive Frame
  /-- It is the right operand. -/
  | left (e : Expression) (op : Operator)
  /-- It stands in parentheses. -/
  | opened
  /-- It is the argument behind those that have been read. -/
  | applied (f : Callee) (arguments : List Expression)

/-- What has been read of an operand. -/
inductive Mode
  | start
  | minus
  | word (w : List Char)
  /-- A word, the bracket behind it and what stands in the bracket. -/
  | bracket (w : List Char)
  /-- The name of the uniforms and a point. -/
  | member
  | done (e : Expression)
  | point (e : Expression)
  | equal (e : Expression)

/-- The operand, if it can end here. -/
def Mode.operand? : Mode → Option Expression
  | word w => Shader.operand? w
  | done e => some e
  | _ => none

/-- What has been read of an expression, the inmost part first. -/
structure Reading where
  frames : List Frame
  mode : Mode

/-- An operand goes to the operators in front of it that bind at least that tight. -/
def collapse (tightness : Nat) : List Frame → Expression → List Frame × Expression
  | .left l op :: frames, e =>
    if tightness ≤ op.tightness then collapse tightness frames (.binary op l e)
    else (.left l op :: frames, e)
  | frames, e => (frames, e)

namespace Reading

/-- Behind an operator the next operand starts. -/
def operator (frames : List Frame) (e : Expression) (op : Operator) : Reading :=
  let (frames, e) := collapse op.tightness frames e
  ⟨.left e op :: frames, .start⟩

/-- Reads the symbol behind an operand. -/
def next (frames : List Frame) (e : Expression) : Char → Option Reading
  | '.' => some ⟨frames, .point e⟩
  | '=' => some ⟨frames, .equal e⟩
  | ',' =>
    match collapse 0 frames e with
    | (.applied f arguments :: frames, e) =>
      some ⟨.applied f (arguments ++ [e]) :: frames, .start⟩
    | _ => none
  | ')' =>
    match collapse 0 frames e with
    | (.opened :: frames, e) => some ⟨frames, .done e⟩
    | (.applied f arguments :: frames, e) => do
      return ⟨frames, .done (← f.apply (arguments ++ [e]))⟩
    | _ => none
  | c => (Operator.ofChar? c).map (operator frames e)

/-- Reads one more token. -/
def step : Reading → Token → Option Reading
  | ⟨frames, .start⟩, .word w => some ⟨frames, .word w⟩
  | ⟨frames, .start⟩, .symbol c =>
    if c = '(' then some ⟨.opened :: frames, .start⟩
    else if c = '-' then some ⟨frames, .minus⟩
    else none
  | ⟨frames, .minus⟩, .word w => do return ⟨frames, .done (← literal? ('-' :: w))⟩
  | ⟨frames, .word w⟩, .symbol c =>
    if c = '(' then do return ⟨.applied (← Callee.ofWord? w) [] :: frames, .start⟩
    else if c = '<' then some ⟨frames, .bracket (w ++ ['<'])⟩
    else if c = '.' ∧ w = ['u'] then some ⟨frames, .member⟩
    else do next frames (← operand? w) c
  | ⟨frames, .bracket w⟩, .word v => some ⟨frames, .bracket (w ++ v)⟩
  | ⟨frames, .bracket w⟩, .symbol c =>
    if c = '>' then some ⟨frames, .word (w ++ ['>'])⟩ else none
  | ⟨frames, .member⟩, .word w => do return ⟨frames, .done (.uniform (← UniformName.ofWord? w))⟩
  | ⟨frames, .done e⟩, .symbol c => next frames e c
  | ⟨frames, .point e⟩, .word w => do
    return ⟨frames, .done (.components e (← w.mapM Component.ofChar?))⟩
  | ⟨frames, .equal e⟩, .symbol c => if c = '=' then some (operator frames e .equal) else none
  | _, _ => none

end Reading

/-- Nothing may be left open at the end of an expression. -/
def Expression.ofTokens? (ts : List Token) : Option Expression := do
  let reading ← ts.foldlM Reading.step ⟨[], .start⟩
  match collapse 0 reading.frames (← reading.mode.operand?) with
  | ([], e) => some e
  | _ => none

/-- A statement without the semicolon. -/
def Statement.ofTokens? : List Token → Option Statement
  | .word ['l', 'e', 't'] :: .word x :: .symbol '=' :: ts => do
    return .declare (← Local.ofWord? x) (← Expression.ofTokens? ts)
  | .word ['v', 'a', 'r'] :: .word x :: .symbol '=' :: ts => do
    return .declareVar (← Local.ofWord? x) (← Expression.ofTokens? ts)
  | .word ['r', 'e', 't', 'u', 'r', 'n'] :: ts => do return .result (← Expression.ofTokens? ts)
  | .word x :: .symbol '=' :: ts => do
    return .assign (← Local.ofWord? x) (← Expression.ofTokens? ts)
  | .word x :: .symbol '.' :: .word [c] :: .symbol '=' :: ts => do
    return .assignComponent (← Local.ofWord? x) (← Component.ofChar? c)
      (← Expression.ofTokens? ts)
  | _ => none

/-- A part of the text of a program. -/
inductive Piece
  /-- Tokens up to a semicolon. -/
  | line (ts : List Token)
  /-- Tokens up to an opening brace, and those up to the closing one. -/
  | block (head body : List Token)

/-- Cuts a text into pieces. Given are the tokens in front of the brace that is open, if one is, and
what has been read behind the last brace or the end of the last piece. There are no braces in
braces. -/
def pieces : Option (List Token) → List Token → List Token → Option (List Piece)
  | head?, read, [] => if head?.isNone ∧ read = [] then some [] else none
  | head?, read, t :: ts =>
    if t = .symbol '\x7b' then
      match head? with
      | none => pieces (some read) [] ts
      | some _ => none
    else if t = .symbol '\x7d' then
      match head? with
      | none => none
      | some head => do return .block head read :: (← pieces none [] ts)
    else if t = .symbol ';' ∧ head?.isNone then do return .line read :: (← pieces none [] ts)
    else pieces head? (read ++ [t]) ts

/-- Cuts tokens behind each occurrence of a symbol, where some tokens have been read. -/
def terminated (c : Char) : List Token → List Token → Option (List (List Token))
  | [], [] => some []
  | _, [] => none
  | read, t :: ts =>
    if t = .symbol c then do return read :: (← terminated c [] ts)
    else terminated c (read ++ [t]) ts

/-- The declarations of a program. -/
structure Listing where
  /-- The members of the structure of the uniforms. -/
  members : List (UniformName × UniformType)
  /-- Bind group of the uniforms and their binding in it. -/
  binding : Option (UInt32 × UInt32)
  fragCoord : Bool
  destColor : Bool
  /-- The functions by their names, in the order of the text. -/
  functions : List (List Char × List Statement)

/-- A name and its type. -/
def member? : List Token → Option (UniformName × UniformType)
  | .word w :: .symbol ':' :: ts => do
    return (← UniformName.ofWord? w, ← UniformType.ofTokens? ts)
  | _ => none

/-- Group and binding of the uniforms, and the variable that they are found in. -/
def binding? : List Token → Option (UInt32 × UInt32)
  | .symbol '@' :: .word ['g', 'r', 'o', 'u', 'p'] :: .symbol '(' :: .word group :: .symbol ')'
      :: .symbol '@' :: .word ['b', 'i', 'n', 'd', 'i', 'n', 'g'] :: .symbol '(' :: .word binding
      :: .symbol ')' :: ts =>
    if ts = lexemes "var<uniform> u: Uniforms" then do
      return (← number? group, ← number? binding)
    else none
  | _ => none

/-- The name of a function that takes and yields what all functions of a program do. -/
def functionName? : List Token → Option (List Char)
  | .word ['f', 'n'] :: .word name :: ts =>
    if ts = lexemes "(_input: vec4<f32>, _coords: vec2<f32>) -> vec4<f32>" then some name else none
  | _ => none

namespace Listing

def empty : Listing := ⟨[], none, false, false, []⟩

/-- Adds a declaration. Nothing is declared twice. -/
def add (l : Listing) : Piece → Option Listing
  | .line ts =>
    if ts = [] then some l
    else if ts = lexemes "var<private> sk_frag_coord: vec4<f32>" then
      if l.fragCoord then none else some { l with fragCoord := true }
    else if ts = lexemes "var<private> sk_dst_color: vec4<f32>" then
      if l.destColor then none else some { l with destColor := true }
    else if l.binding.isSome then none
    else do return { l with binding := some (← binding? ts) }
  | .block head body =>
    if head = lexemes "struct Uniforms" then do
      let members ← (← terminated ',' [] body).mapM member?
      if l.members = [] ∧ (members.map Prod.fst).Nodup then some { l with members } else none
    else do
      let name ← functionName? head
      let statements ← (← terminated ';' [] body).mapM Statement.ofTokens?
      if name ∈ l.functions.map Prod.fst then none
      else some { l with functions := l.functions ++ [(name, statements)] }

/-- A comment in front of a text is left out. -/
def afterComment : List Char → List Char
  | '/' :: '/' :: text => text.dropWhile (· ≠ '\n')
  | text => text

/-- What the text of a program says. -/
def ofText? (text : String) : Option Listing := do
  let text := String.ofList (afterComment text.toList)
  (← pieces none [] (lexemes text)).foldlM add empty

/-- The global variables. A uniform has the type that it is declared with, and the value that is
found under its name. -/
def globals (l : Listing) (data : UniformValues) (renderer : Renderer) : Globals where
  renderer
  uniform u := do
    let _ ← l.binding
    Value.ofUniform (← l.members.lookup u) ((← data.get? u.text).map Ieee.toRat)
  fragCoord := if l.fragCoord then some renderer.position else none
  destColor := if l.destColor then some (.ofColor renderer.destination) else none

/-- What functions, the last one first, make of a color. A function sees those before it. -/
def call (globals : Globals) : List (List Char × List Statement) → List Char → Color ℚ → ℚ × ℚ →
    Option (Color ℚ)
  | [], _, _, _ => none
  | (w, body) :: earlier, name, input, coords =>
    if w = name then
      Context.run
        { globals with call := fun f => call globals earlier f.text.toList, input, coords } body
    else call globals earlier name input coords

/-- The color that the function with the name yields. -/
def run (l : Listing) (name : String) (data : UniformValues) (renderer : Renderer)
    (input : Color ℚ) (coords : ℚ × ℚ) : Option (Color ℚ) :=
  call (l.globals data renderer) l.functions.reverse name.toList input coords

end Listing

end Shader

end PixelEffect
