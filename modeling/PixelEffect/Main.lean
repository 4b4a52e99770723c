import PixelEffect.CommandLine.Commands

namespace PixelEffect.CommandLine

/-- Reads what is found under a path. -/
def readContent (path : String) : IO FileContent := do
  try
    let bytes ← IO.FS.readBinFile path
    match String.fromUTF8? bytes with
    | some content => return .text content
    | none => return .notText
  catch
    | .noFileOrDirectory .. => return .cannotOpen .notFound
    | .permissionDenied .. => return .cannotOpen .notPermitted
    | .inappropriateType (some _) .. => return .cannotOpen .notADirectory
    | .invalidArgument (some _) .. => return .cannotOpen .nameTooLong
    | _ => return .notText

end PixelEffect.CommandLine

open PixelEffect.CommandLine in
def main (arguments : List String) : IO UInt32 := do
  let paths := match Request.ofArguments arguments with
    | .ok request => request.paths
    | .error _ => []
  let contents ← paths.mapM fun path => do return (path, ← readContent path)
  let readFile (path : String) : FileContent := (contents.lookup path).getD .notText
  let output := run readFile arguments
  IO.print output.stdout
  IO.eprint output.stderr
  return output.exitCode.toUInt32
