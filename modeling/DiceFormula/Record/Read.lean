/-
# Reading records

A record is read field by field in the order in which the fields stand.  Fields
with other names are passed over, and only `count` and `previous` may be missing.
A record may also be a list of all its fields, in the order of the table in
`Datum`.  An operation is its name, or a single field of that name without a
value.

The first thing that cannot be read is the error.  Intervals and pools are built
from what was read like all others, so a record can also be refused for describing
no die.
-/

import DiceFormula.Die.Build
import DiceFormula.Record.Datum

namespace DiceFormula

/-- Why a record was refused. -/
inductive ReadError (α : Type) where
  /-- Something is missing, or is not what should be there. -/
  | shape
  /-- The record describes no die. -/
  | argument (cause : ArgumentError α)

abbrev ReadResult (α β : Type) := Except (ReadError α) β

variable {α β : Type} [Scalar α]

namespace ReadError

/-- The value that is there. -/
def require : Option β → ReadResult α β
  | some b => .ok b
  | none => .error .shape

/-- What was built from a record. -/
def check : Except (ArgumentError α) β → ReadResult α β := Except.mapError .argument

end ReadError

open ReadError

namespace Datum

/-- Reads a finite number. -/
def readNumber : Datum α → ReadResult α α
  | .number x => if Scalar.isFinite x then .ok x else .error .shape
  | .integer n => .ok (Scalar.ofInt n)
  | _ => .error .shape

/-- Reads an integer of 64 bits. -/
def readInt : Datum α → ReadResult α Int
  | .integer n => if smallestInt ≤ n ∧ n ≤ largestInt then .ok n else .error .shape
  | _ => .error .shape

def readOperation : Datum α → ReadResult α Operation
  | .text name => require (Operation.ofName? name)
  | .fields [(name, .null)] => require (Operation.ofName? name)
  | _ => .error .shape

/-- Reads the value of a fixed die. -/
def readFixed : Datum α → ReadResult α α
  | .fields fs => do
    match fs.lookup "value" with
    | some d => d.readNumber
    | none => .error .shape
  | .list (d :: rest) => do
    let x ← d.readNumber
    if rest.isEmpty then return x else .error .shape
  | _ => .error .shape

/-- Reads the ends of an interval from its fields. -/
def readEnds : List (String × Datum α) → Option Int → Option Int → ReadResult α (Int × Int)
  | [], min, max => do return (← require min, ← require max)
  | (name, d) :: rest, min, max => do
    if name = "min" then readEnds rest (some (← d.readInt)) max
    else if name = "max" then readEnds rest min (some (← d.readInt))
    else readEnds rest min max

def readUniform : Datum α → ReadResult α Uniform
  | .fields fs => do
    let (min, max) ← readEnds fs none none
    check (Uniform.ofInterval min max)
  | .list items => do
    match items with
    | min :: max :: rest =>
      let min ← min.readInt
      let max ← max.readInt
      if rest.isEmpty then check (Uniform.ofInterval min max) else .error .shape
    | _ =>  .error .shape
  | _ => .error .shape

/-- What is read from a datum that may be null. -/
def optional (d : Datum α) (result : ReadResult α β) : ReadResult α (Option β) :=
  match d with
  | .null => .ok none
  | _ => some <$> result

/-- The pool of a value and perhaps a count. -/
def buildPool (value : Die α) : Option (Die α) → ReadResult α (Pool α)
  | none => .ok (.single value)
  | some count => check (Pool.ofCount noCustom count value)

/-- The chain of a last link. -/
def buildLink (op : Operation) (pool : Pool α) : Option (Chain α) → Chain α
  | none => .head op pool
  | some front => .append front op pool

mutual

/-- Reads a die of any kind. -/
def readDie : Datum α → ReadResult α (Die α)
  | .fields [(kind, d)] =>
    if kind = "Fixed" then .fixed <$> d.readFixed
    else if kind = "Uniform" then .uniform <$> d.readUniform
    else if kind = "Pool" then .pool <$> d.readPool
    else if kind = "Link" then .link <$> d.readLink
    else if kind = "Chain" then .chain <$> d.readChain
    else .error .shape
  | _ => .error .shape

def readPool : Datum α → ReadResult α (Pool α)
  | .fields fs => readPoolFields fs none none
  | .list items => readPoolItems items
  | _ => .error .shape

/-- Reads the fields of a pool. -/
def readPoolFields :
    List (String × Datum α) → Option (Die α) → Option (Die α) → ReadResult α (Pool α)
  | [], value, count => do buildPool (← require value) count
  | (name, d) :: rest, value, count => do
    if name = "value" then readPoolFields rest (some (← d.readDie)) count
    else if name = "count" then readPoolFields rest value (← optional d d.readDie)
    else readPoolFields rest value count

/-- Reads a pool from a list. -/
def readPoolItems : List (Datum α) → ReadResult α (Pool α)
  | value :: count :: rest => do
    let value ← value.readDie
    let count ← optional count count.readDie
    if rest.isEmpty then buildPool value count else .error .shape
  | [value] => do
    let _ ← value.readDie
    .error .shape
  | [] => .error .shape

/-- Reads a link, and all links before it. -/
def readLink : Datum α → ReadResult α (Chain α)
  | .fields fs => readLinkFields fs none none none
  | .list items => readLinkItems items
  | _ => .error .shape

/-- Reads the fields of a link. -/
def readLinkFields :
    List (String × Datum α) → Option Operation → Option (Pool α) → Option (Chain α) →
      ReadResult α (Chain α)
  | [], op, pool, previous => do return buildLink (← require op) (← require pool) previous
  | (name, d) :: rest, op, pool, previous => do
    if name = "operation" then readLinkFields rest (some (← d.readOperation)) pool previous
    else if name = "pool" then readLinkFields rest op (some (← d.readPool)) previous
    else if name = "previous" then readLinkFields rest op pool (← optional d d.readLink)
    else readLinkFields rest op pool previous

/-- Reads a link from a list. -/
def readLinkItems : List (Datum α) → ReadResult α (Chain α)
  | op :: pool :: previous :: rest => do
    let op ← op.readOperation
    let pool ← pool.readPool
    let previous ← optional previous previous.readLink
    if rest.isEmpty then return buildLink op pool previous else .error .shape
  | [op, pool] => do
    let _ ← op.readOperation
    let _ ← pool.readPool
    .error .shape
  | _ => .error .shape

/-- Reads a chain. -/
def readChain : Datum α → ReadResult α (Chain α)
  | .fields fs => readLast fs none
  | .list items => readOnly items
  | _ => .error .shape

/-- Reads the last link of a chain from its fields. -/
def readLast : List (String × Datum α) → Option (Chain α) → ReadResult α (Chain α)
  | [], last => require last
  | (name, d) :: rest, last => do
    if name = "last" then readLast rest (some (← d.readLink)) else readLast rest last

/-- Reads the last link of a chain from a list. -/
def readOnly : List (Datum α) → ReadResult α (Chain α)
  | last :: rest => do
    let last ← last.readLink
    if rest.isEmpty then return last else .error .shape
  | [] => .error .shape

end

/-- Reads rolls, of which there is at least one. -/
def readRolls : Datum α → ReadResult α (Rolls α)
  | .list items => do require (Rolls.ofList? (← items.mapM readNumber))
  | _ => .error .shape

def readStep : Datum α → ReadResult α (Step α)
  | .fields fs => do
    let rolls ← (← require (fs.lookup "rolls")).readRolls
    let total ← (← require (fs.lookup "total")).readNumber
    let operation ← (← require (fs.lookup "operation")).readOperation
    return ⟨operation, rolls, total⟩
  | .list [rolls, total, operation] => do
    let rolls ← rolls.readRolls
    let total ← total.readNumber
    return ⟨← operation.readOperation, rolls, total⟩
  | _ => .error .shape

/-- Reads a list of steps. -/
def readSteps : Datum α → ReadResult α (List (Step α))
  | .list items => items.mapM readStep
  | _ => .error .shape

def readTranscript : Datum α → ReadResult α (Transcript α)
  | .fields fs => do
    let total ← (← require (fs.lookup "total")).readNumber
    return ⟨total, ← (← require (fs.lookup "steps")).readSteps⟩
  | .list [total, steps] => do
    let total ← total.readNumber
    return ⟨total, ← steps.readSteps⟩
  | _ => .error .shape

end Datum
end DiceFormula
