/-
# Registries of node parsers

The nodes of an expression are read by an ordered list of parsers, of which the
first one that gives a pool wins.  A parser may also decline a text, or break
down over it; either way the next one gets its turn.

Parsers are known by their ids.  Ids are given out in ascending order and never
again, so an id that was removed stays unknown.
-/

import DiceFormula.Die.Equality
import DiceFormula.Expression.Node
import DiceFormula.Expression.Segment

namespace DiceFormula

/-- What a parser makes of a text. -/
inductive Verdict (α : Type) where
  | pool (pool : Pool α)
  | decline
  /-- The parser broke down. -/
  | fault

abbrev NodeParser (α : Type) := String → Verdict α

structure ParserId where
  index : Nat
deriving DecidableEq, Repr

def ParserId.text (id : ParserId) : String := s!"ParserId({id.index})"

/-- Parsers in the order in which they are tried. -/
structure Registry (α : Type) where
  entries : List (ParserId × NodeParser α)
  nextId : Nat

variable {α : Type}

namespace Verdict

def pool? : Verdict α → Option (Pool α)
  | pool p => some p
  | _ => none

def isFault : Verdict α → Bool
  | fault => true
  | _ => false

end Verdict

namespace Registry

/-- No parsers at all. -/
def empty : Registry α := ⟨[], 0⟩

/-- Adds a parser behind all others, and gives its id. -/
def add (r : Registry α) (parser : NodeParser α) : ParserId × Registry α :=
  (⟨r.nextId⟩, ⟨r.entries ++ [(⟨r.nextId⟩, parser)], r.nextId + 1⟩)

/-- Whether a parser is registered. -/
def contains (r : Registry α) (id : ParserId) : Bool := r.entries.any (·.1 == id)

/-- Removes a parser, and tells whether there was one. -/
def remove (r : Registry α) (id : ParserId) : Bool × Registry α :=
  (r.contains id, { r with entries := r.entries.filter (·.1 != id) })

def ids (r : Registry α) : List ParserId := r.entries.map (·.1)

def size (r : Registry α) : Nat := r.entries.length

def isEmpty (r : Registry α) : Bool := r.entries.isEmpty

/-- The ids, in the order of their parsers. -/
def text (r : Registry α) : String :=
  "[" ++ String.intercalate ", " (r.ids.map ParserId.text) ++ "]"

/-- The pool of the first parser that knows the text. -/
def readNode? (r : Registry α) (text : String) : Option (Pool α) :=
  r.entries.findSome? fun (_, parser) => (parser text).pool?

/-- The parsers that break down before one knows the text. -/
def faults (r : Registry α) (text : String) : List ParserId :=
  let tried := r.entries.takeWhile fun (_, parser) => (parser text).pool?.isNone
  (tried.filter fun (_, parser) => (parser text).isFault).map (·.1)

/-- The pool of a segment. -/
def readSegment (r : Registry α) (s : Segment) : Except ParseError (Pool α) :=
  if s.node.all isBlank then .error (s.error .emptyNode)
  else
    match r.readNode? (String.ofList s.node) with
    | some pool => .ok pool
    | none => .error (s.error .unknownNode)

/-- The link of a segment. -/
def readLink (r : Registry α) (s : Segment) : Except ParseError (Link α) := do
  return ⟨s.operation, ← r.readSegment s⟩

/-- The chain of some links; the operation of the first is not used. -/
def chainOf? : List (Link α) → Option (Chain α)
  | [] => none
  | l :: ls => some ((Chain.ofPool l.pool).extend ls)

/-- The chain that an expression denotes. -/
def readChain (r : Registry α) (text : String) : Except ParseError (Chain α) := do
  let segments ← Expression.split text.toList
  let links ← segments.mapM r.readLink
  match chainOf? links with
  | some chain => return chain
  | none => .error ⟨.emptyNode, 0, text.utf8ByteSize, text⟩

/-- The segments of an expression that are handed to the parsers: all up to the
first one that is blank or that none of them knows. -/
def offered (r : Registry α) : List Segment → List Segment
  | [] => []
  | s :: rest =>
    if s.node.all isBlank then []
    else if (r.readNode? (String.ofList s.node)).isSome then s :: r.offered rest
    else [s]

/-- Each text that is handed to the parsers, with those that break down over it. -/
def faultsIn (r : Registry α) (text : String) : List (ParserId × String) :=
  match Expression.split text.toList with
  | .error _ => []
  | .ok segments =>
    (r.offered segments).flatMap fun s =>
      let node := String.ofList s.node
      (r.faults node).map fun id => (id, node)

variable [Scalar α]

/-- The parser of the usual forms of a node. -/
def builtinParser : NodeParser α := fun text =>
  match Pool.ofNode? text with
  | some pool => .pool pool
  | none => .decline

/-- The registry of that parser alone. -/
def builtin : Registry α := (empty.add builtinParser).2

/-- The id of that parser in `builtin`. -/
def builtinId : ParserId := ⟨0⟩

end Registry

/-- The chain that an expression denotes. -/
def Chain.parse [Scalar α] (text : String) : Except ParseError (Chain α) :=
  Registry.builtin.readChain text

end DiceFormula
