import PixelEffect.Color
import PixelEffect.Decimal.Reader

namespace PixelEffect.CommandLine

inductive CommandName
  | emit
  | key
  | dump
  | eval
deriving DecidableEq

namespace CommandName

def all : List CommandName := [emit, key, dump, eval]

def text : CommandName → String
  | emit => "emit"
  | key => "key"
  | dump => "dump"
  | eval => "eval"

def ofText? (text : String) : Option CommandName := all.find? (·.text = text)

end CommandName

/-- What help can be asked about. -/
inductive HelpTopic
  | program
  | command (name : CommandName)
  /-- The command that prints help. -/
  | help
deriving DecidableEq

/-- What the command line asks for. -/
inductive Request
  | version
  | help (topic : HelpTopic)
  | emit (path : String) (options : Option String) (uniforms : Bool)
  | key (path : String)
  | dump (path : String)
  | eval (path : String) (input : Color Single)

/-- The files that a request reads, in order. -/
def Request.paths : Request → List String
  | version | help _ => []
  | emit path options _ => path :: options.toList
  | key path | dump path | eval path _ => [path]

/-- Why arguments are not accepted. -/
inductive UsageError
  | missingCommand
  | unexpected (argument : String)
  | unexpectedValue (option value : String)
  | missingValue (option : String)
  | repeated (option : String)
  | missingOption (option : String)
  | invalidInput (value reason : String)
deriving DecidableEq

namespace UsageError

/-- The message behind `error:`. -/
def message : UsageError → String
  | missingCommand => "a command is required"
  | unexpected argument => s!"unexpected argument '{argument}' found"
  | unexpectedValue option value =>
    s!"unexpected value '{value}' for '{option}' found; no more were expected"
  | missingValue option => s!"a value is required for '{option}' but none was supplied"
  | repeated option => s!"the argument '{option}' cannot be used multiple times"
  | missingOption option =>
    s!"the following required arguments were not provided:\n  {option}"
  | invalidInput value reason => s!"invalid value '{value}' for '--input <INPUT>': {reason}"

end UsageError

/-- Blank characters around the components of a color. -/
def isBlank (c : Char) : Bool :=
  let n := c.toNat
  (0x09 ≤ n && n ≤ 0x0D) || n = 0x20 || n = 0x85 || n = 0xA0 || n = 0x1680
    || (0x2000 ≤ n && n ≤ 0x200A) || n = 0x2028 || n = 0x2029 || n = 0x202F || n = 0x205F
    || n = 0x3000

def trim (cs : List Char) : List Char :=
  ((cs.dropWhile isBlank).reverse.dropWhile isBlank).reverse

/-- The parts of a text between commas. -/
def splitAtCommas : List Char → List (List Char)
  | [] => [[]]
  | c :: rest =>
    match splitAtCommas rest with
    | [] => [[c]]
    | part :: parts => if c = ',' then [] :: part :: parts else (c :: part) :: parts

/-- One component of a color. -/
def componentArgument (cs : List Char) : Except String Single :=
  match Ieee.ofText (String.ofList (trim cs)) with
  | .ok x => .ok x
  | .error e => .error ("'" ++ String.ofList cs ++ "': " ++ e.message)

/-- Reads a color of four components separated by commas. -/
def colorArgument (text : String) : Except String (Color Single) := do
  match ← (splitAtCommas text.toList).mapM componentArgument with
  | [r, g, b, a] =>
    match Color.validate ⟨r, g, b, a⟩ with
    | .ok c => .ok c
    | .error e => .error e.message
  | components => .error s!"expected 4 components, got {components.length}"

/-- Options that take a value. -/
inductive ValueOption
  | description
  | options
  | input
deriving DecidableEq

namespace ValueOption

def name : ValueOption → String
  | description => "in"
  | options => "opts"
  | input => "input"

/-- The option as messages show it. -/
def title : ValueOption → String
  | description => "--in <IN_PATH>"
  | options => "--opts <OPTS>"
  | input => "--input <INPUT>"

end ValueOption

/-- The options of a command that take a value. -/
def CommandName.valueOptions : CommandName → List ValueOption
  | .emit => [.description, .options]
  | .key | .dump => [.description]
  | .eval => [.description, .input]

/-- The options that are given so far. -/
structure Given where
  description : Option String
  options : Option String
  uniforms : Bool
  input : Option (Color Single)

namespace Given

def none : Given := ⟨.none, .none, false, .none⟩

def has (g : Given) : ValueOption → Bool
  | .description => g.description.isSome
  | .options => g.options.isSome
  | .input => g.input.isSome

/-- Takes a value. A path must not be empty. -/
def store (g : Given) (option : ValueOption) (value : String) : Except UsageError Given :=
  if g.has option then .error (.repeated option.title)
  else
    match option with
    | .description =>
      if value.isEmpty then .error (.missingValue option.title)
      else .ok { g with description := some value }
    | .options =>
      if value.isEmpty then .error (.missingValue option.title)
      else .ok { g with options := some value }
    | .input =>
      match colorArgument value with
      | .ok c => .ok { g with input := some c }
      | .error reason => .error (.invalidInput value reason)

end Given

/-- An option whose value stands in the next argument. It is stored when the next option begins. -/
structure Pending where
  option : ValueOption
  value : Option String

def Pending.store (g : Given) : Option Pending → Except UsageError Given
  | none => .ok g
  | some ⟨option, none⟩ => .error (.missingValue option.title)
  | some ⟨option, some value⟩ => g.store option value

/-- The name and the value of an argument `--name` or `--name=value`. -/
def splitLong (cs : List Char) : String × Option String :=
  let name := String.ofList (cs.takeWhile (· ≠ '='))
  match cs.dropWhile (· ≠ '=') with
  | [] => (name, none)
  | _ :: value => (name, some (String.ofList value))

/-- The request of a command whose options have all been read. -/
def Request.ofGiven (command : CommandName) (g : Given) : Except UsageError Request :=
  match g.description with
  | none => .error (.missingOption (ValueOption.title .description))
  | some path =>
    match command with
    | .emit => .ok (.emit path g.options g.uniforms)
    | .key => .ok (.key path)
    | .dump => .ok (.dump path)
    | .eval => .ok (.eval path (g.input.getD .white))

/-- Reads the arguments behind a command. -/
def Request.ofOptions (command : CommandName) (g : Given) (pending : Option Pending) :
    List String → Except UsageError Request
  | [] => do Request.ofGiven command (← Pending.store g pending)
  | argument :: rest =>
    match argument.toList with
    | ['-', '-'] =>
      match rest with
      | [] => do Request.ofGiven command (← Pending.store g pending)
      | next :: _ => .error (.unexpected next)
    | '-' :: '-' :: long =>
      let (name, value) := splitLong long
      match command.valueOptions.find? (·.name = name), value with
      | some option, some value => do
        let g ← Pending.store g pending
        Request.ofOptions command (← g.store option value) none rest
      | some option, none => do
        Request.ofOptions command (← Pending.store g pending) (some ⟨option, none⟩) rest
      | none, value =>
        if name = "help" ∨ (command = .emit ∧ name = "uniforms") then
          match value with
          | some value => .error (.unexpectedValue ("--" ++ name) value)
          | none => do
            let g ← Pending.store g pending
            if name = "help" then return .help (.command command)
            if g.uniforms then throw (.repeated "--uniforms")
            Request.ofOptions command { g with uniforms := true } none rest
        else .error (.unexpected argument)
    | '-' :: c :: _ =>
      if c = 'h' then do
        let _ ← Pending.store g pending
        return .help (.command command)
      else .error (.unexpected argument)
    | _ =>
      match pending with
      | some ⟨option, none⟩ => Request.ofOptions command g (some ⟨option, some argument⟩) rest
      | _ => .error (.unexpected argument)

/-- Reads all arguments. -/
def Request.ofArguments : List String → Except UsageError Request
  | [] => .error .missingCommand
  | argument :: rest =>
    match CommandName.ofText? argument with
    | some command => Request.ofOptions command .none none rest
    | none =>
      if argument = "--version" ∨ ['-', 'V'].isPrefixOf argument.toList then .ok .version
      else if argument = "--help" ∨ ['-', 'h'].isPrefixOf argument.toList then .ok (.help .program)
      else if argument = "help" then
        match rest with
        | [] => .ok (.help .program)
        | [topic] =>
          match CommandName.ofText? topic with
          | some command => .ok (.help (.command command))
          | none => if topic = "help" then .ok (.help .help) else .error (.unexpected topic)
        | _ :: next :: _ => .error (.unexpected next)
      else if argument = "--" then
        match rest with
        | [] => .error .missingCommand
        | next :: _ => .error (.unexpected next)
      else .error (.unexpected argument)

end PixelEffect.CommandLine
