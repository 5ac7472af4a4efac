/-
# Records

Dice can be stored as plain data: numbers, texts, lists and fields with names.
Integers and other numbers are kept apart, since the ends of an interval have to
be integers.

| stored | as |
| --- | --- |
| a fixed value | `value` |
| an interval | `min`, `max` |
| a pool | `value` and `count`, which is null if there is none |
| a link | `operation`, `pool`, and `previous`, which is null at the head |
| a chain | `last`, its last link |
| any die | a single field with the kind of the die as its name |
| a step | `rolls`, `total`, `operation` |
| a stepped roll | `total`, `steps` |

Custom dice cannot be stored.
-/

import DiceFormula.Roll.Step

namespace DiceFormula

/-- Plain data. -/
inductive Datum (α : Type) where
  | null
  | bool (value : Bool)
  | integer (value : Int)
  | number (value : α)
  | text (value : String)
  | list (items : List (Datum α))
  | fields (fields : List (String × Datum α))

variable {α : Type}

/-- Fields in alphabetical order; of fields with one name the last one counts. -/
def Datum.insertField (name : String) (value : Datum α) :
    List (String × Datum α) → List (String × Datum α)
  | [] => [(name, value)]
  | (other, d) :: rest =>
    if name < other then (name, value) :: (other, d) :: rest
    else if name = other then (name, value) :: rest
    else (other, d) :: insertField name value rest

@[inherit_doc Datum.insertField]
def Datum.ofFields (fs : List (String × Datum α)) : Datum α :=
  .fields (fs.foldl (fun sorted (name, value) => insertField name value sorted) [])

def Uniform.toDatum (u : Uniform) : Datum α :=
  .fields [("min", .integer u.min), ("max", .integer u.max)]

def Operation.toDatum (op : Operation) : Datum α := .text op.name

mutual

/-- Stores a die, unless there is a custom die in it. -/
def Die.toDatum? : Die α → Option (Datum α)
  | .fixed value => some (.fields [("Fixed", .fields [("value", .number value)])])
  | .uniform u => some (.fields [("Uniform", u.toDatum)])
  | .pool p => do return .fields [("Pool", ← p.toDatum?)]
  | .link c => do return .fields [("Link", ← c.linkToDatum?)]
  | .chain c => do return .fields [("Chain", .fields [("last", ← c.linkToDatum?)])]
  | .custom _ => none

@[inherit_doc Die.toDatum?]
def Pool.toDatum? : Pool α → Option (Datum α)
  | .single value => do return .fields [("value", ← value.toDatum?), ("count", .null)]
  | .counted count value => do
    let value ← value.toDatum?
    return .fields [("value", value), ("count", ← count.toDatum?)]

/-- Stores a chain as its last link. -/
def Chain.linkToDatum? : Chain α → Option (Datum α)
  | .head op p => do
    return .fields [("operation", op.toDatum), ("pool", ← p.toDatum?), ("previous", .null)]
  | .append front op p => do
    let p ← p.toDatum?
    return .fields [("operation", op.toDatum), ("pool", p), ("previous", ← front.linkToDatum?)]

end

def Step.toDatum (s : Step α) : Datum α :=
  .fields [("rolls", .list (s.rolls.list.map .number)), ("total", .number s.total),
    ("operation", s.operation.toDatum)]

def Transcript.toDatum (r : Transcript α) : Datum α :=
  .fields [("total", .number r.total), ("steps", .list (r.steps.map Step.toDatum))]

end DiceFormula
