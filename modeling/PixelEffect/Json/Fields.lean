import PixelEffect.Json.Basic

namespace PixelEffect

namespace Json

def toSingle? : Json → Option Single
  | number n => (JsonNumber.ofNumeral n).map JsonNumber.toSingle
  | _ => none

def toDouble? : Json → Option Double
  | number n => (JsonNumber.ofNumeral n).map JsonNumber.toDouble
  | _ => none

/-- A number that is written as an integer and fits into 32 bits. -/
def toUInt32? : Json → Option UInt32
  | number n =>
    match JsonNumber.ofNumeral n with
    | some (.integer (.ofNat i)) => if i < UInt32.size then some i.toUInt32 else none
    | _ => none
  | _ => none

def toBool? : Json → Option Bool
  | bool b => some b
  | _ => none

def toText? : Json → Option String
  | string s => some s
  | _ => none

def toSingles? : Json → Option (List Single)
  | array items => items.mapM toSingle?
  | _ => none

/-- One of several names. It may also be written as the only member of an object, which then has
no content. -/
def toChoice? {α : Type} (ofName? : String → Option α) : Json → Option α
  | string name | object [(name, null)] | object [(name, object [])] => ofName? name
  | _ => none

end Json

/-- Members by name, where no name occurs twice. -/
abbrev Fields (α : Type) := List (String × α)

namespace Fields

variable {α β : Type}

/-- Keeps the members with the given names, unless one of them occurs twice. -/
def select (names : List String) (members : List (String × α)) : Option (Fields α) :=
  let known := members.filter fun m => names.contains m.1
  if (known.map (·.1)).Nodup then some known else none

/-- Gives the names to items in order, of which there must not be more. -/
def ofItems (names : List String) (items : List α) : Option (Fields α) :=
  if items.length ≤ names.length then some (names.zip items) else none

def required (fields : Fields α) (name : String) (read : α → Option β) : Option β :=
  (fields.lookup name).bind read

def optional (fields : Fields α) (name : String) (read : α → Option β) (absent : β) : Option β :=
  match fields.lookup name with
  | some x => read x
  | none => some absent

end Fields

end PixelEffect
