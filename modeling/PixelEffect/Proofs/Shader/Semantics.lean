import PixelEffect.Proofs.Number.Exact
import PixelEffect.Shader.Program

namespace PixelEffect.Shader

/-- A value of the shading language. Numbers are rational and arithmetic is exact; what the language
rejects has no value. -/
inductive Value
  | number (x : ℚ)
  | vector (xs : List ℚ)
  /-- A matrix by its columns. -/
  | matrix (columns : List (List ℚ))
  | truth (b : Bool)
deriving DecidableEq

namespace Value

def ofColor (c : Color ℚ) : Value := vector c.toList

def toColor? : Value → Option (Color ℚ)
  | vector [r, g, b, a] => some ⟨r, g, b, a⟩
  | _ => none

def ofPoint (p : ℚ × ℚ) : Value := vector [p.1, p.2]

def toPoint? : Value → Option (ℚ × ℚ)
  | vector [x, y] => some (x, y)
  | _ => none

/-- The value of a uniform. The numbers of a matrix come column by column. -/
def ofUniform : UniformType → List ℚ → Option Value
  | .vec2, [x, y] => some (vector [x, y])
  | .vec4, [x, y, z, w] => some (vector [x, y, z, w])
  | .mat3, [a, b, c, d, e, f, g, h, i] => some (matrix [[a, b, c], [d, e, f], [g, h, i]])
  | .mat4, [a, b, c, d, e, f, g, h, i, j, k, l, m, n, o, p] =>
    some (matrix [[a, b, c, d], [e, f, g, h], [i, j, k, l], [m, n, o, p]])
  | _, _ => none

/-- Whether two values have the same type. -/
def alike : Value → Value → Bool
  | number _, number _ | truth _, truth _ => true
  | vector xs, vector ys => xs.length = ys.length
  | matrix xs, matrix ys => xs.map List.length = ys.map List.length
  | _, _ => false

/-- Applies a function to a number or to each component of a vector. -/
def map (f : ℚ → ℚ) : Value → Option Value
  | number x => some (number (f x))
  | vector xs => some (vector (xs.map f))
  | _ => none

/-- Combines two numbers, or two vectors of the same size component by component. -/
def pointwise (f : ℚ → ℚ → ℚ) : Value → Value → Option Value
  | number x, number y => some (number (f x y))
  | vector xs, vector ys =>
    if xs.length = ys.length then some (vector (List.zipWith f xs ys)) else none
  | _, _ => none

/-- The same, where a number may also be combined with every component of a vector. -/
def broadcast (f : ℚ → ℚ → ℚ) : Value → Value → Option Value
  | number x, vector ys => some (vector (ys.map (f x)))
  | vector xs, number y => some (vector (xs.map (f · y)))
  | x, y => pointwise f x y

/-- The components of a vector in the given order. A single one is a number. -/
def components (cs : List Component) : Value → Option Value
  | vector xs => do
    match ← cs.mapM fun c => xs[c.index]? with
    | [x] => some (number x)
    | picked => some (vector picked)
  | _ => none

/-- Puts a number into one component of a vector. -/
def setComponent (c : Component) : Value → Value → Option Value
  | vector xs, number x => if c.index < xs.length then some (vector (xs.set c.index x)) else none
  | _, _ => none

/-- The numbers that a constructor takes from an argument. -/
def parts : Value → Option (List ℚ)
  | number x => some [x]
  | vector xs => some xs
  | _ => none

/-- A vector of `n` components from arguments that have as many together, or all components from
one number. -/
def construct (n : Nat) : List Value → Option Value
  | [number x] => some (vector (List.replicate n x))
  | values => do
    let parts ← values.mapM parts
    if parts.flatten.length = n then some (vector parts.flatten) else none

/-- A square matrix times a vector: the sum of the columns, each multiplied by its component of the
vector. -/
def transform (columns : List (List ℚ)) (xs : List ℚ) : Option Value :=
  if columns.length = xs.length ∧ columns.all (·.length = xs.length) then
    let scaled := List.zipWith (fun column x => column.map (· * x)) columns xs
    some (vector (scaled.foldl (List.zipWith (· + ·)) (List.replicate xs.length 0)))
  else none

end Value

open Value

/-- What the language leaves to the renderer, and what the renderer provides for a fragment. -/
structure Renderer where
  /-- The position of the fragment. -/
  x : ℚ
  y : ℚ
  z : ℚ
  w : ℚ
  /-- The color at the destination. -/
  destination : Color ℚ
  /-- What a number divided by zero is. -/
  byZero : ℚ → ℚ

namespace Renderer

def position (r : Renderer) : Value := vector [r.x, r.y, r.z, r.w]

def divide (r : Renderer) (x y : ℚ) : ℚ := if y = 0 then r.byZero x else x / y

/-- The meaning of the operators. -/
def operator (r : Renderer) : Operator → Value → Value → Option Value
  | .equal, number x, number y => some (truth (x = y))
  | .equal, _, _ => none
  | .add, x, y => broadcast (· + ·) x y
  | .sub, x, y => broadcast (· - ·) x y
  | .mul, matrix columns, vector xs => transform columns xs
  | .mul, x, y => broadcast (· * ·) x y
  | .div, x, y => broadcast r.divide x y

end Renderer

/-- The meaning of the functions of the language. -/
def Builtin.value? : Builtin → List Value → Option Value
  | vec3, arguments => construct 3 arguments
  | vec4, arguments => construct 4 arguments
  | saturate, [e] => e.map fun x => Min.min (Max.max x 0) 1
  | min, [x, y] => pointwise Min.min x y
  | max, [x, y] => pointwise Max.max x y
  | clamp, [e, low, high] => do pointwise Min.min (← pointwise Max.max e low) high
  | dot, [vector xs, vector ys] =>
    if xs.length = ys.length then some (number (List.zipWith (· * ·) xs ys).sum) else none
  | select, [x, y, truth b] => if alike x y then some (if b then y else x) else none
  | mix, [vector xs, vector ys, number t] =>
    pointwise (fun x y => x * (1 - t) + y * t) (vector xs) (vector ys)
  | _, _ => none

/-- What the functions of a program make of a color and a coordinate. -/
abbrev Calls := FunctionName → Color ℚ → ℚ × ℚ → Option (Color ℚ)

/-- The variables that all functions of a program see. What is not declared has no value. -/
structure Globals where
  renderer : Renderer
  uniform : UniformName → Option Value
  fragCoord : Option Value
  destColor : Option Value

/-- What the body of a function sees. -/
structure Context extends Globals where
  call : Calls
  input : Color ℚ
  coords : ℚ × ℚ

/-- A value under the name of a local. -/
structure Binding where
  value : Value
  /-- The name was declared as a variable. -/
  assignable : Bool

/-- The locals that have been declared. -/
abbrev Locals := Local → Option Binding

namespace Locals

def empty : Locals := fun _ => none

def set (locals : Locals) (x : Local) (binding : Binding) : Locals :=
  fun y => if y = x then some binding else locals y

/-- Declares a local. No name is declared twice. -/
def declare (locals : Locals) (x : Local) (binding : Binding) : Option Locals :=
  match locals x with
  | some _ => none
  | none => some (locals.set x binding)

/-- Assigns to a variable, which keeps its type. -/
def assign (locals : Locals) (x : Local) (value : Value) : Option Locals :=
  match locals x with
  | some ⟨old, true⟩ => if alike old value then some (locals.set x ⟨value, true⟩) else none
  | _ => none

end Locals

def Variable.value? (context : Context) (locals : Locals) : Variable → Option Value
  | input => some (ofColor context.input)
  | coords => some (ofPoint context.coords)
  | fragCoord => context.fragCoord
  | destColor => context.destColor
  | named x => (locals x).map Binding.value

namespace Expression

mutual

/-- The value of an expression. A literal is the float that it was printed from. -/
def eval (context : Context) (locals : Locals) : Expression → Option Value
  | literal x => some (number x.toRat)
  | var x => x.value? context locals
  | uniform name => context.uniform name
  | components e cs => do (← eval context locals e).components cs
  | binary op left right => do
    context.renderer.operator op (← eval context locals left) (← eval context locals right)
  | group e => eval context locals e
  | builtin f arguments => do f.value? (← evalAll context locals arguments)
  | call f input coords => do
    let input ← (← eval context locals input).toColor?
    let coords ← (← eval context locals coords).toPoint?
    let color ← context.call f input coords
    return Value.ofColor color

def evalAll (context : Context) (locals : Locals) : List Expression → Option (List Value)
  | [] => some []
  | e :: rest => do return (← eval context locals e) :: (← evalAll context locals rest)

end

end Expression

/-- Runs the statements of a body up to the one that yields the result. -/
def runStatements (context : Context) (locals : Locals) : List Statement → Option Value
  | [] => none
  | .declare x e :: rest => do
    runStatements context (← locals.declare x ⟨← e.eval context locals, false⟩) rest
  | .declareVar x e :: rest => do
    runStatements context (← locals.declare x ⟨← e.eval context locals, true⟩) rest
  | .assign x e :: rest => do
    runStatements context (← locals.assign x (← e.eval context locals)) rest
  | .assignComponent x c e :: rest => do
    let old ← Variable.value? context locals (.named x)
    let new ← setComponent c old (← e.eval context locals)
    runStatements context (← locals.assign x new) rest
  | .result e :: _ => e.eval context locals

/-- The color that a body yields. -/
def Context.run (context : Context) (statements : List Statement) : Option (Color ℚ) := do
  (← runStatements context .empty statements).toColor?

/-- What functions, the last one first, make of a color. A function sees those before it. -/
def Globals.call (globals : Globals) : List GeneratedFunction → Calls
  | [], _, _, _ => none
  | f :: earlier, name, input, coords =>
    if f.name = name then
      Context.run { globals with call := globals.call earlier, input, coords } f.body
    else globals.call earlier name input coords

end PixelEffect.Shader

namespace PixelEffect

open Shader

namespace ShaderSource

/-- The global variables that a source text declares. A uniform has the value that is found under
its name. -/
def globals (s : ShaderSource) (data : UniformValues) (renderer : Renderer) : Globals where
  renderer
  uniform u := if u ∈ s.uniforms then
      (data.get? u.text).bind fun xs => Value.ofUniform u.type (xs.map Ieee.toRat)
    else none
  fragCoord := if s.fragCoord then some renderer.position else none
  destColor := if s.destination then some (.ofColor renderer.destination) else none

/-- The color that the entry point of a program yields. It calls the function of the root. -/
def run (s : ShaderSource) (data : UniformValues) (renderer : Renderer) (input : Color ℚ)
    (coords : ℚ × ℚ) : Option (Color ℚ) :=
  (s.globals data renderer).call s.functions.reverse s.root input coords

end ShaderSource

end PixelEffect
