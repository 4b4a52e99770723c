import PixelEffect.Node.Basic
import PixelEffect.Shader.Body

namespace PixelEffect.Shader

/-- The functions and uniforms that have been emitted so far. -/
structure Builder where
  functions : List GeneratedFunction
  uniforms : List UniformName
  /-- The number of the next function. Behind the last number it starts again from zero. -/
  next : UInt32

namespace Builder

def empty : Builder := ⟨[], [], 0⟩

/-- The name that no function has yet. -/
def nextName (b : Builder) : FunctionName := ⟨b.next⟩

/-- Adds the function of an effect with the uniforms that it owns. -/
def add (b : Builder) (kind : Kind) (operands : List (Option FunctionName)) : Builder :=
  let f := b.nextName
  { functions := b.functions ++ [⟨f, body kind f operands⟩]
    uniforms := b.uniforms ++ kind.uniforms.map fun role => ⟨f, role⟩
    next := b.next + 1 }

end Builder

/-- What an outline knows about one node. -/
structure Entry where
  effectClass : EffectClass
  /-- The function that was last emitted for the node. -/
  function : Option FunctionName
  /-- The uniforms that were declared with it. -/
  uniforms : List UniformName
deriving DecidableEq

/-- The shape of a tree: the same slots, empty where those of the tree are. -/
inductive Outline
  | mk (entry : Entry) (slots : List (Option Outline))

/-- What an emission leaves behind, whether it succeeds or not. -/
structure Emission (α β : Type) where
  outline : α
  builder : Builder
  result : Except CodegenError β

namespace Outline

def entry : Outline → Entry
  | mk entry _ => entry

def slots : Outline → List (Option Outline)
  | mk _ slots => slots

mutual

/-- The outline of a tree that has not been emitted. -/
def ofNode : Node → Outline
  | .mk data slots => mk ⟨data.kind.effectClass, none, []⟩ (ofSlots slots)

def ofSlots : List (Option Node) → List (Option Outline)
  | [] => []
  | none :: rest => none :: ofSlots rest
  | some child :: rest => some (ofNode child) :: ofSlots rest

end

/-- Checks that a node is of the class and has the number of slots that its entry says. -/
def checkFits (entry : Entry) (slotCount : Nat) (n : Node) : Except CodegenError Unit :=
  if entry.effectClass ≠ n.kind.effectClass then
    .error (.classDiffers entry.effectClass.title n.name)
  else if slotCount ≠ n.slots.length then
    .error (.slotCountDiffers n.name n.slots.length slotCount)
  else .ok ()

mutual

/-- Emits the functions of a tree, those of the children before that of their parent, and yields
the name of the last one. Where the tree does not fit the outline, the emission stops, and what
has been emitted stays. -/
def emit : Outline → Node → Builder → Emission Outline FunctionName
  | mk entry slots, n, b =>
    match checkFits entry slots.length n with
    | .error e => ⟨mk entry slots, b, .error e⟩
    | .ok () =>
      match emitSlots n.name 0 slots n.slots b with
      | ⟨slots, b, .error e⟩ => ⟨mk entry slots, b, .error e⟩
      | ⟨slots, b, .ok operands⟩ =>
        let f := b.nextName
        let uniforms := n.kind.uniforms.map fun role => ⟨f, role⟩
        ⟨mk { entry with function := some f, uniforms } slots, b.add n.kind operands, .ok f⟩

/-- Emits the functions of the children from slot `i` on. -/
def emitSlots (name : String) (i : Nat) :
    List (Option Outline) → List (Option Node) → Builder →
      Emission (List (Option Outline)) (List (Option FunctionName))
  | some o :: slots, some child :: children, b =>
    match emit o child b with
    | ⟨o, b, .error e⟩ => ⟨some o :: slots, b, .error e⟩
    | ⟨o, b, .ok f⟩ =>
      let rest := emitSlots name (i + 1) slots children b
      ⟨some o :: rest.outline, rest.builder, (some f :: ·) <$> rest.result⟩
  | none :: slots, none :: children, b =>
    let rest := emitSlots name (i + 1) slots children b
    ⟨none :: rest.outline, rest.builder, (none :: ·) <$> rest.result⟩
  | some o :: slots, none :: _, b =>
    ⟨some o :: slots, b, .error (.slotPresenceDiffers name i)⟩
  | none :: slots, some _ :: _, b => ⟨none :: slots, b, .error (.slotPresenceDiffers name i)⟩
  | slots, _, b => ⟨slots, b, .ok []⟩

end

/-- Checks from slot `i` on that the same slots are empty. -/
def checkPresence (name : String) (i : Nat) :
    List (Option Outline) → List (Option Node) → Except CodegenError Unit
  | o :: slots, child :: children =>
    if o.isSome = child.isSome then checkPresence name (i + 1) slots children
    else .error (.slotPresenceDiffers name i)
  | _, _ => .ok ()

/-- Writes values from the `i`-th one on to the uniforms with the given names. -/
def writeValues (node : String) (i : Nat) :
    List UniformName → List (List Single) → UniformValues → UniformValues × Except CodegenError Unit
  | _, [], data => (data, .ok ())
  | [], _ :: _, data => (data, .error (.uniformMissing node i))
  | name :: names, values :: rest, data =>
    writeValues node (i + 1) names rest (data.set name values)

mutual

/-- Writes the values of a tree to the uniforms that were emitted for the outline. Values that are
written before an error stay. -/
def write : Outline → Node → UniformValues → UniformValues × Except CodegenError Unit
  | mk entry slots, n, data =>
    if entry.function.isNone then (data, .error (.notEmitted n.name))
    else
      match (do checkFits entry slots.length n; checkPresence n.name 0 slots n.slots) with
      | .error e => (data, .error e)
      | .ok () =>
        match writeSlots slots n.slots data with
        | (data, .error e) => (data, .error e)
        | (data, .ok ()) => writeValues n.name 0 entry.uniforms n.kind.uniformValues data

def writeSlots : List (Option Outline) → List (Option Node) → UniformValues →
    UniformValues × Except CodegenError Unit
  | some o :: slots, some child :: children, data =>
    match write o child data with
    | (data, .error e) => (data, .error e)
    | (data, .ok ()) => writeSlots slots children data
  | _ :: slots, _ :: children, data => writeSlots slots children data
  | _, _, data => (data, .ok ())

end

end Outline

end PixelEffect.Shader
