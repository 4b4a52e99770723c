import PixelEffect.Shader.Expression

namespace PixelEffect.Shader

namespace Expression

def one : Expression := literal 1

def zero : Expression := literal 0

def named (x : Local) : Expression := var (.named x)

def input : Expression := var .input

def coords : Expression := var .coords

def opaqueWhite : Expression := builtin .vec4 [one]

def transparent : Expression := builtin .vec4 [zero]

def alpha (e : Expression) : Expression := components e [.a]

def rgb (e : Expression) : Expression := components e [.r, .g, .b]

def saturate (e : Expression) : Expression := builtin .saturate [e]

/-- A color whose channels are given. -/
def ofColor (c : Color Single) : Expression := builtin .vec4 (c.toList.map literal)

/-- What a generated function makes of a color. Without a function the color stays as it is. -/
def callAt (coords : Expression) (f : Option FunctionName) (input : Expression) : Expression :=
  match f with
  | some f => call f input coords
  | none => input

/-- The same at the coordinate that the caller is sampled at. -/
def callOrInput (f : Option FunctionName) (input : Expression) : Expression :=
  callAt coords f input

end Expression

open Expression

/-- One output channel of a swizzle of `e`. -/
def channel (e : Expression) : Channel → Expression
  | .r => components e [.r]
  | .g => components e [.g]
  | .b => components e [.b]
  | .a => components e [.a]
  | .zero => zero
  | .one => one

/-- The component that a channel is, if it is none of the constants. -/
def component? : Channel → Option Component
  | .r => some .r
  | .g => some .g
  | .b => some .b
  | .a => some .a
  | .zero | .one => none

/-- A swizzle of `e`: its components where no constant is needed, else a new vector. -/
def swizzled (e : Expression) (s : Swizzle) : Expression :=
  match s.toList.mapM component? with
  | some cs => components e cs
  | none => builtin .vec4 (s.toList.map (channel e))

/-- Blends the source `s` with the destination `d`. -/
def blended (mode : BlendMode) (s d : Expression) : Expression :=
  match mode with
  | .clear => transparent
  | .src => s
  | .dst => d
  | .srcOver => s + (one - s.alpha) * d
  | .dstOver => d + (one - d.alpha) * s
  | .srcIn => s * d.alpha
  | .dstIn => d * s.alpha
  | .srcOut => s * (one - d.alpha)
  | .dstOut => d * (one - s.alpha)
  | .srcATop => s * d.alpha + d * (one - s.alpha)
  | .dstATop => d * s.alpha + s * (one - d.alpha)
  | .xor => s * (one - d.alpha) + d * (one - s.alpha)
  | .plus => builtin .min [s + d, opaqueWhite]
  | .modulate => s * d
  | .screen => s + d - s * d

/-- The color that the operands of a blend are sampled with. -/
def probe : BlendBehavior → Expression
  | .skMode => input
  | _ => opaqueWhite

/-- An operand of a blend. An absent one is the input color. -/
def blendOperand (behavior : BlendBehavior) : Option FunctionName → Expression
  | some f => callOrInput (some f) (probe behavior)
  | none => input

/-- The shortest squared length of a gradient that it is divided by. -/
def leastSquaredLength : Single := Ieee.ofDecimal false 1 (-12)

/-- The statements that transform the color `c`. -/
def colorMatrixSteps (m : ColorMatrix) (linear offset : Expression) : List Statement :=
  let c := named .c
  (if m.unpremulInput then
      [.assign .c (builtin .select
        [builtin .vec4 [c.rgb / c.alpha, c.alpha], transparent, binary .equal c.alpha zero])]
    else [])
  ++ [.assign .c (linear * c + offset)]
  ++ (if m.clampRgbOutput then [.assign .c c.saturate]
    else [.assignComponent .c .a c.alpha.saturate])
  ++ (if m.premulOutput then [.assign .c (builtin .vec4 [c.rgb * c.alpha, c.alpha])] else [])

/-- The body of the function `f` for an effect, given the functions of its operands. -/
def body (kind : Kind) (f : FunctionName) (operands : List (Option FunctionName)) :
    List Statement :=
  let operand (i : Nat) : Option FunctionName := operands[i]?.join
  let own (role : UniformRole) : Expression := uniform ⟨f, role⟩
  match kind with
  | .color _ => [.result (own .color)]
  | .overrideInput c specialized =>
    [.result (callOrInput (operand 0) (if specialized then ofColor c else own .color))]
  | .destColor => [.result (var .destColor)]
  | .swizzle s =>
    [.declare .c (callOrInput (operand 0) input), .result (swizzled (named .c) s)]
  | .premul =>
    [.declareVar .c (callOrInput (operand 0) opaqueWhite),
      .assign .c (builtin .vec4 [(named .c).rgb * input.rgb, (named .c).alpha]),
      .result (named .c * input.alpha)]
  | .compose =>
    [.declare .g (callOrInput (operand 1) input),
      .result (callOrInput (operand 0) (named .g))]
  | .blend mode behavior =>
    let out := blended mode (named .s) (named .d)
    [.declare .s (blendOperand behavior (operand 0)),
      .declare .d (blendOperand behavior (operand 1)),
      .result (match behavior with
        | .composeTwo => group out * input.alpha
        | _ => out)]
  | .colorMatrix m =>
    .declareVar .c (callOrInput (operand 0) input)
      :: colorMatrixSteps m (own .linear) (own .offset) ++ [.result (named .c)]
  | .clamp false =>
    [.declare .c (callOrInput (operand 0) input), .result (named .c).saturate]
  | .clamp true =>
    [.declare .c (callOrInput (operand 0) input), .declare .a (named .c).alpha.saturate,
      .result (builtin .vec4
        [builtin .clamp [(named .c).rgb, builtin .vec3 [zero], builtin .vec3 [named .a]],
          named .a])]
  | .deviceSpace =>
    [.result (callAt (components (var .fragCoord) [.x, .y]) (operand 0) input)]
  | .matrix m =>
    let point := components (named .p) [.x, .y]
    [.declare .p (own .mapping * builtin .vec3 [coords, one]),
      .result (callAt (if m.hasPerspective then point / components (named .p) [.z] else point)
        (operand 0) input)]
  | .linearGradient .. =>
    let d := named .d
    [.declare .d (own .finish - own .start),
      .declare .t (saturate
        (builtin .dot [coords - own .start, d]
          / builtin .max [builtin .dot [d, d], literal leastSquaredLength])),
      .result (builtin .mix [own .startColor, own .finishColor, named .t])]

/-- A generated function. -/
structure GeneratedFunction where
  name : FunctionName
  body : List Statement

/-- Parameters and type that all functions of a program have. -/
def signature : String := "(_input: vec4<f32>, _coords: vec2<f32>) -> vec4<f32> \x7b\n"

def GeneratedFunction.text (f : GeneratedFunction) : String :=
  "fn " ++ f.name.text ++ signature
    ++ String.join (f.body.map fun statement => "    " ++ statement.text ++ "\n") ++ "\x7d\n"

end PixelEffect.Shader
