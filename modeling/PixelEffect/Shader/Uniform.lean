import PixelEffect.Kind

namespace PixelEffect

/-- The shader types that uniforms have. -/
inductive UniformType
  | vec2
  | vec4
  | mat3
  | mat4
deriving DecidableEq

namespace UniformType

/-- The name in descriptions of a program. -/
def name : UniformType → String
  | vec2 => "vec2"
  | vec4 => "vec4"
  | mat3 => "mat3"
  | mat4 => "mat4"

/-- The type in shader source. -/
def sourceText : UniformType → String
  | vec2 => "vec2<f32>"
  | vec4 => "vec4<f32>"
  | mat3 => "mat3x3<f32>"
  | mat4 => "mat4x4<f32>"

/-- The number of values of a uniform; those of a matrix are stored column by column. -/
def scalarCount : UniformType → Nat
  | vec2 => 2
  | vec4 => 4
  | mat3 => 9
  | mat4 => 16

end UniformType

/-- What a uniform is to the function that owns it. -/
inductive UniformRole
  /-- The color itself, or the one that overrides the input. -/
  | color
  /-- The linear part of a color matrix. -/
  | linear
  /-- The offset of a color matrix. -/
  | offset
  /-- The matrix that maps coordinates. -/
  | mapping
  /-- The point where a gradient starts. -/
  | start
  /-- The point where a gradient ends. -/
  | finish
  /-- The color at the start of a gradient. -/
  | startColor
  /-- The color at the end of a gradient. -/
  | finishColor
deriving DecidableEq

namespace UniformRole

def name : UniformRole → String
  | color => "color"
  | linear => "m"
  | offset => "v"
  | mapping => "matrix"
  | start => "start"
  | finish => "end"
  | startColor => "c0"
  | finishColor => "c1"

def type : UniformRole → UniformType
  | color | offset | startColor | finishColor => .vec4
  | linear => .mat4
  | mapping => .mat3
  | start | finish => .vec2

end UniformRole

/-- The name of a generated function. -/
structure FunctionName where
  index : UInt32
deriving DecidableEq

def FunctionName.text (f : FunctionName) : String := "fp" ++ toString f.index

/-- The name of a uniform. No two uniforms of one function have the same role. -/
structure UniformName where
  owner : FunctionName
  role : UniformRole
deriving DecidableEq

namespace UniformName

def text (u : UniformName) : String := u.owner.text ++ "_" ++ u.role.name

def type (u : UniformName) : UniformType := u.role.type

end UniformName

/-- The uniforms that the function of an effect owns, in the order of their declaration. A
specialized color is part of the program instead. -/
def Kind.uniforms : Kind → List UniformRole
  | color _ | overrideInput _ false => [.color]
  | colorMatrix _ => [.linear, .offset]
  | matrix _ => [.mapping]
  | linearGradient .. => [.start, .finish, .startColor, .finishColor]
  | overrideInput _ true | destColor | swizzle _ | premul | compose | blend .. | clamp _
  | deviceSpace => []

/-- The values of the uniforms of an effect, in the same order. -/
def Kind.uniformValues : Kind → List (List Single)
  | color c | overrideInput c false => [c.toList]
  | colorMatrix m => [m.columns, m.offsets]
  | matrix m => [m.columns]
  | linearGradient start finish c d => [start.toList, finish.toList, c.toList, d.toList]
  | overrideInput _ true | destColor | swizzle _ | premul | compose | blend .. | clamp _
  | deviceSpace => []

/-- Values of uniforms, in the order of the texts of their names. -/
structure UniformValues where
  entries : List (UniformName × List Single)
deriving DecidableEq

namespace UniformValues

def empty : UniformValues := ⟨[]⟩

/-- Puts a value into a sorted list, in place of the one with the same name if there is one. -/
def insert (name : UniformName) (values : List Single) :
    List (UniformName × List Single) → List (UniformName × List Single)
  | [] => [(name, values)]
  | (other, found) :: rest =>
    if name = other then (name, values) :: rest
    else if name.text < other.text then (name, values) :: (other, found) :: rest
    else (other, found) :: insert name values rest

def set (data : UniformValues) (name : UniformName) (values : List Single) : UniformValues :=
  ⟨insert name values data.entries⟩

def get? (data : UniformValues) (name : String) : Option (List Single) :=
  (data.entries.find? (·.1.text = name)).map (·.2)

def length (data : UniformValues) : Nat := data.entries.length

def isEmpty (data : UniformValues) : Bool := data.entries.isEmpty

end UniformValues

end PixelEffect
