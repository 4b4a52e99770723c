import PixelEffect.CommandLine.Arguments
import PixelEffect.Description.Reader
import PixelEffect.Description.Tree
import PixelEffect.Node.Dump
import PixelEffect.Node.Evaluation
import PixelEffect.Shader.OptionsReader
import PixelEffect.Shader.Program

namespace PixelEffect.CommandLine

/-- What is found under the path of a file. -/
inductive FileContent
  | text (content : String)
  /-- The file cannot be opened. -/
  | cannotOpen (cause : OpenFailure)
  /-- The file can be opened, but there is no text in it. -/
  | notText

/-- What a run of the program leaves behind. -/
structure Output where
  exitCode : Nat
  stdout : String
  stderr : String
deriving DecidableEq

namespace Output

def success (stdout : String) : Output := ⟨0, stdout, ""⟩

/-- Something that went wrong, with the cause if there is one. -/
def failure (what : String) : Option Error → Output
  | none => ⟨1, "", "Error: " ++ what ++ "\n"⟩
  | some cause => ⟨1, "", "Error: " ++ what ++ "\n\nCaused by:\n    " ++ cause.message ++ "\n"⟩

/-- A rule of the library was broken. -/
def aborted : Output := ⟨101, "", "internal error\n"⟩

/-- Arguments that are not accepted. -/
def usage (e : UsageError) : Output :=
  ⟨2, "", "error: " ++ e.message ++ "\n\nFor more information, try '--help'.\n"⟩

end Output

/-- The first line of help about a command. -/
def CommandName.summary : CommandName → String
  | .emit => "Print the generated shader source for an effect description"
  | .key => "Print the program key words and fingerprint"
  | .dump => "Print the tree dump and its pre-order traversal"
  | .eval => "Evaluate a constant-foldable tree for a constant input color"

def helpSummary : String := "Print this message or the help of the given subcommand(s)"

/-- Terms with their explanations, one per line, the explanations in one column. -/
def glossary (rows : List (String × String)) : String :=
  let width := rows.foldl (fun width row => max width row.1.length) 0
  String.join (rows.map fun (term, explanation) =>
    "  " ++ Node.padRight (width + 2) term ++ explanation ++ "\n")

/-- The options of a command, with what they are for. -/
def CommandName.optionRows (command : CommandName) : List (String × String) :=
  let input := ("    --in <IN_PATH>", "Input effect description JSON")
  let help := ("-h, --help", "Print help")
  match command with
  | .emit =>
    [input, ("    --opts <OPTS>", "Program options JSON"),
      ("    --uniforms", "Also print the uniform values"), help]
  | .key | .dump => [input, help]
  | .eval =>
    [input,
      ("    --input <INPUT>",
        "Premultiplied input color as \x60r,g,b,a\x60 [default: 1,1,1,1]"),
      help]

/-- Whether a command has an option that may be left out, apart from help. -/
def CommandName.hasOptional : CommandName → Bool
  | .emit | .eval => true
  | .key | .dump => false

/-- The help about a topic. -/
def helpText : HelpTopic → String
  | .program =>
    "Usage: fxtree <COMMAND>\n\nCommands:\n"
      ++ glossary (CommandName.all.map (fun c => (c.text, c.summary)) ++ [("help", helpSummary)])
      ++ "\nOptions:\n"
      ++ glossary [("-h, --help", "Print help"), ("-V, --version", "Print version")]
  | .help =>
    helpSummary ++ "\n\nUsage: fxtree help [COMMAND]...\n\nArguments:\n"
      ++ glossary [("[COMMAND]...", "Print help for the subcommand(s)")]
  | .command command =>
    command.summary ++ "\n\nUsage: fxtree " ++ command.text
      ++ (if command.hasOptional then " [OPTIONS]" else "") ++ " --in <IN_PATH>\n\nOptions:\n"
      ++ glossary command.optionRows

/-- Reads the text of a file. -/
def readText (content path : String) : FileContent → Except Error String
  | .text s => .ok s
  | .cannotOpen cause => .error (.validation (.cannotOpen content path cause))
  | .notText => .error .unreadable

/-- A computation of a command, which may end with an output early. -/
abbrev Command (α : Type) := Except Output α

/-- Goes on with the result of a step, or ends with its error and what the step was about. -/
def step {α : Type} (what : String) : Except Error α → Command α
  | .ok x => .ok x
  | .error e => .error (.failure what (some e))

def checkedStep {α : Type} (what : String) : Except Failure α → Command α
  | .ok x => .ok x
  | .error (.error e) => .error (.failure what (some e))
  | .error (.violation _) => .error .aborted

/-- The tree described in a file. -/
def loadTree (readFile : String → FileContent) (path : String) : Command Node := do
  let description ← step s!"read effect description '{path}'"
    ((readText "effect description" path (readFile path)).bind Description.ofText)
  match ← checkedStep s!"build effect tree from '{path}'" description.tree with
  | some root => return root
  | none => throw (.failure s!"'{path}' describes an absent effect" none)

def loadOptions (readFile : String → FileContent) : Option String → Command ProgramOptions
  | none => .ok .standard
  | some path =>
    step s!"read program options '{path}'"
      ((readText "program options" path (readFile path)).bind ProgramOptions.ofText)

/-- The values of uniforms as comments behind the source. -/
def uniformLines (data : UniformValues) : String :=
  "\n" ++ String.join (data.entries.map fun (name, values) =>
    "// " ++ name.text ++ " = " ++ NumberStyle.floating.listText values ++ "\n")

def emit (readFile : String → FileContent) (path : String) (options : Option String)
    (uniforms : Bool) : Command Output := do
  let root ← loadTree readFile path
  let options ← loadOptions readFile options
  let program ← step "build program" (Program.ofNode root options)
  let values ← if uniforms then do
      let data ← step "collect uniform values" (program.uniformValues root)
      pure (uniformLines data)
    else pure ""
  return ⟨0, program.text ++ values, "fingerprint " ++ program.fingerprint.text ++ "\n"⟩

def key (readFile : String → FileContent) (path : String) : Command Output := do
  let key := ProgramKey.ofNode (← loadTree readFile path)
  let words := " ".intercalate (key.words.map fun w => Fingerprint.hex 8 w.toNat)
  return .success ("words: " ++ words ++ "\nfingerprint: " ++ key.fingerprint.text ++ "\n")

def dump (readFile : String → FileContent) (path : String) : Command Output := do
  let root ← loadTree readFile path
  return .success (root.dump ++ "\n" ++ root.walkLines)

def eval (readFile : String → FileContent) (path : String) (input : Color Single) :
    Command Output := do
  let root ← loadTree readFile path
  let out ← checkedStep s!"evaluate '{root.name}'" (root.shade input)
  return .success (" ".intercalate (out.toList.map NumberStyle.plain.text) ++ "\n")

/-- Does what is asked for. -/
def Request.run (readFile : String → FileContent) (r : Request) : Output :=
  let result : Command Output :=
    match r with
    | version => .ok (.success "fxtree 0.1.0\n")
    | help topic => .ok (.success (helpText topic))
    | emit path options uniforms => CommandLine.emit readFile path options uniforms
    | key path => CommandLine.key readFile path
    | dump path => CommandLine.dump readFile path
    | eval path input => CommandLine.eval readFile path input
  match result with
  | .ok output | .error output => output

/-- Runs the program with the given arguments. -/
def run (readFile : String → FileContent) (arguments : List String) : Output :=
  match Request.ofArguments arguments with
  | .ok request => request.run readFile
  | .error e => .usage e

end PixelEffect.CommandLine
