namespace PixelEffect

/-- Why a file cannot be opened. -/
inductive OpenFailure
  | notFound
  | notPermitted
  | notADirectory
  | nameTooLong
deriving DecidableEq

/-- A parameter that is not acceptable. -/
inductive ValidationError
  | colorNotFinite
  | gradientNotFinite
  | matrixNotFinite
  | colorMatrixLength (length : Nat)
  | colorMatrixNotFinite
  | swizzleLength (text : String)
  | swizzleChannel (text : String) (channel : Char)
  | noLiteralColor (node : String)
  | opacityWouldChange
  | entryPointNotIdentifier (name : String)
  | entryPointReserved (name : String)
  | entryPointCollides (name : String)
  | cannotOpen (content path : String) (cause : OpenFailure)
deriving DecidableEq

/-- Why a node has no color for a constant input. -/
inductive EvaluationError
  | notConstant (node : String)
  | notComputable (node : String)
deriving DecidableEq

/-- Why a program cannot be emitted for a tree, or fed from one. -/
inductive CodegenError
  | classDiffers (expected node : String)
  | slotCountDiffers (node : String) (found expected : Nat)
  | slotPresenceDiffers (node : String) (slot : Nat)
  | uniformMissing (node : String) (index : Nat)
  | notEmitted (node : String)
  | otherProgram (node fingerprint : String)
  | destinationReadsDisabled
deriving DecidableEq

/-- What can go wrong. Each cause has one wording. -/
inductive Error
  | validation (cause : ValidationError)
  | evaluation (cause : EvaluationError)
  | codegen (cause : CodegenError)
  | unreadable
deriving DecidableEq

namespace OpenFailure

def message : OpenFailure → String
  | notFound => "No such file or directory (os error 2)"
  | notPermitted => "Permission denied (os error 13)"
  | notADirectory => "Not a directory (os error 20)"
  | nameTooLong => "File name too long (os error 36)"

end OpenFailure

namespace ValidationError

def message : ValidationError → String
  | colorNotFinite => "color channels must be finite"
  | gradientNotFinite => "gradient points must be finite"
  | matrixNotFinite => "matrix values must be finite"
  | colorMatrixLength length => s!"color matrix needs 20 coefficients, got {length}"
  | colorMatrixNotFinite => "color matrix coefficients must be finite"
  | swizzleLength text => s!"swizzle '{text}' must have exactly 4 channels"
  | swizzleChannel text channel => s!"swizzle '{text}' has invalid channel '{channel}'"
  | noLiteralColor node => s!"'{node}' has no literal color"
  | opacityWouldChange => "literal color update cannot change opacity"
  | entryPointNotIdentifier name => s!"entry point '{name}' is not an identifier"
  | entryPointReserved name => s!"entry point '{name}' uses a reserved name"
  | entryPointCollides name => s!"entry point '{name}' collides with a generated function"
  | cannotOpen content path cause => s!"open {content} '{path}': {cause.message}"

end ValidationError

namespace EvaluationError

def message : EvaluationError → String
  | notConstant node => s!"'{node}' has no constant output for a constant input"
  | notComputable node => s!"'{node}' cannot be evaluated on the CPU"

end EvaluationError

namespace CodegenError

def message : CodegenError → String
  | classDiffers expected node => s!"mirror is {expected} but node is '{node}'"
  | slotCountDiffers node found expected =>
    s!"'{node}' has {found} child slots, mirror has {expected}"
  | slotPresenceDiffers node slot => s!"'{node}' slot #{slot}: presence differs from the mirror"
  | uniformMissing node index =>
    s!"'{node}' is missing uniform #{index}; was the program emitted?"
  | notEmitted node => s!"'{node}' has not been emitted"
  | otherProgram node fingerprint =>
    s!"tree rooted at '{node}' does not match program {fingerprint}"
  | destinationReadsDisabled =>
    "tree reads the destination color but destination reads are disabled"

end CodegenError

namespace Error

def message : Error → String
  | validation cause => "validation error: " ++ cause.message
  | evaluation cause => "evaluation error: " ++ cause.message
  | codegen cause => "codegen error: " ++ cause.message
  | unreadable => "serialization error"

end Error

/-- A use of the library that its rules forbid. -/
inductive Violation
  /-- A child was attached that already has a parent or sampling state. -/
  | childAttached
  /-- A child was attached to a node that is itself attached. -/
  | parentAttached
  /-- A value was clamped between bounds that are out of order. -/
  | clampBounds
deriving DecidableEq

/-- Why a computation gives no result. -/
inductive Failure
  | error (cause : Error)
  | violation (cause : Violation)
deriving DecidableEq

end PixelEffect
