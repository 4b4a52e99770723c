import PixelEffect.ProgramKey
import PixelEffect.Shader.Options
import PixelEffect.Shader.Outline

namespace PixelEffect

/-- Everything that the source text of a program is made of. -/
structure ShaderSource where
  options : ProgramOptions
  uniforms : List UniformName
  functions : List Shader.GeneratedFunction
  /-- The function of the root of the tree. -/
  root : FunctionName
  /-- Whether the position of the fragment is declared. -/
  fragCoord : Bool
  /-- Whether the destination color is declared. -/
  destination : Bool

namespace ShaderSource

/-- The declaration of the uniforms, if there are any. -/
def uniformText (s : ShaderSource) : String :=
  if s.uniforms.isEmpty then ""
  else
    "\nstruct Uniforms \x7b\n"
      ++ String.join (s.uniforms.map fun u =>
        "    " ++ u.text ++ ": " ++ u.type.sourceText ++ ",\n")
      ++ "\x7d;\n\n@group(" ++ toString s.options.uniformGroup ++ ") @binding("
      ++ toString s.options.uniformBinding ++ ") var<uniform> u: Uniforms;\n"

/-- The declarations of what the renderer provides for every fragment. -/
def globalText (s : ShaderSource) : String :=
  (if s.fragCoord || s.destination then "\n" else "")
    ++ (if s.fragCoord then "var<private> sk_frag_coord: vec4<f32>;\n" else "")
    ++ (if s.destination then "var<private> sk_dst_color: vec4<f32>;\n" else "")

/-- The function that the renderer calls. -/
def entryText (s : ShaderSource) : String :=
  "\nfn " ++ s.options.entryPoint ++ Shader.signature ++ "    return " ++ s.root.text
    ++ "(_input, _coords);\n\x7d\n"

def text (s : ShaderSource) : String :=
  "// generated by fxtree\n" ++ s.uniformText ++ s.globalText
    ++ String.join (s.functions.map fun f => "\n" ++ f.text) ++ s.entryText

end ShaderSource

/-- A program with what is needed to find it again and to feed it. -/
structure Program where
  source : ShaderSource
  key : ProgramKey
  outline : Shader.Outline

namespace Program

def text (p : Program) : String := p.source.text

def entryPoint (p : Program) : String := p.source.options.entryPoint

def uniforms (p : Program) : List UniformName := p.source.uniforms

def fingerprint (p : Program) : Fingerprint := p.key.fingerprint

/-- Generates the program of a tree. -/
def ofNode (root : Node) (options : ProgramOptions) : Except Error Program := do
  options.validate
  if root.flags.readsDestination && !options.allowDestinationRead then
    throw (.codegen .destinationReadsDisabled)
  match (Shader.Outline.ofNode root).emit root .empty with
  | ⟨_, _, .error e⟩ => throw (.codegen e)
  | ⟨outline, b, .ok f⟩ =>
    return {
      source := {
        options, uniforms := b.uniforms, functions := b.functions, root := f
        fragCoord := root.capabilities.fragCoord, destination := root.flags.readsDestination }
      key := .ofNode root, outline }

/-- The values that a tree feeds to the uniforms. A tree with another key needs another program. -/
def uniformValues (p : Program) (root : Node) : Except Error UniformValues :=
  if ProgramKey.ofNode root ≠ p.key then
    .error (.codegen (.otherProgram root.name p.fingerprint.text))
  else
    match p.outline.write root .empty with
    | (_, .error e) => .error (.codegen e)
    | (data, .ok ()) => .ok data

end Program

end PixelEffect
