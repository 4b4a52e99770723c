import PixelEffect.Error

namespace PixelEffect

/-- What can be chosen about a generated program. -/
structure ProgramOptions where
  /-- The name of the function that the renderer calls. -/
  entryPoint : String
  /-- Bind group of the uniforms. -/
  uniformGroup : UInt32
  /-- Binding of the uniforms in their group. -/
  uniformBinding : UInt32
  /-- Whether a program may read the destination color. -/
  allowDestinationRead : Bool
deriving DecidableEq

namespace ProgramOptions

def standard : ProgramOptions := ⟨"main_color", 0, 0, true⟩

/-- A letter or an underscore, which may start a name. -/
def startsName (c : Char) : Bool := c.isAlpha || c = '_'

def continuesName (c : Char) : Bool := c.isAlphanum || c = '_'

def isIdentifier : List Char → Bool
  | [] => false
  | c :: rest => startsName c && rest.all continuesName

/-- Names that start like those of the language or of the renderer, and the name of the uniforms
themselves. -/
def isReserved (name : List Char) : Bool :=
  ['_', '_'].isPrefixOf name || ['s', 'k', '_'].isPrefixOf name || name = ['u']

/-- Names like `fp12`, which are those of the generated functions. -/
def isFunctionName : List Char → Bool
  | 'f' :: 'p' :: digits => !digits.isEmpty && digits.all Char.isDigit
  | _ => false

/-- Checks that the entry point is an identifier that cannot be mistaken for another name of a
program. -/
def validate (o : ProgramOptions) : Except Error Unit :=
  let name := o.entryPoint.toList
  if !isIdentifier name then .error (.validation (.entryPointNotIdentifier o.entryPoint))
  else if isReserved name then .error (.validation (.entryPointReserved o.entryPoint))
  else if isFunctionName name then .error (.validation (.entryPointCollides o.entryPoint))
  else .ok ()

end ProgramOptions

end PixelEffect
