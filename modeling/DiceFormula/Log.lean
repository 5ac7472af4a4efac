/-
# The log

What happens is told in lines of three levels.

| level | about |
| --- | --- |
| warn | a parser that broke down |
| debug | an expression that was read, a pool that was rolled |
| trace | a link that was joined, a generator that was spawned |
-/

import DiceFormula.Expression.Registry
import DiceFormula.Roll.Run

namespace DiceFormula

inductive LogLevel where
  | warn
  | debug
  | trace
deriving DecidableEq, Repr

def LogLevel.name : LogLevel → String
  | warn => "WARN"
  | debug => "DEBUG"
  | trace => "TRACE"

structure LogLine where
  level : LogLevel
  text : String
deriving DecidableEq, Repr

/-- The line about a generator that was spawned. -/
def LogLine.spawned : LogLine := ⟨.trace, "spawned a generator from the seed source"⟩

variable {α : Type} [Scalar α]

/-- A list of numbers in brackets. -/
def entriesText (xs : List α) : String :=
  "[" ++ String.intercalate ", " (xs.map fun x => String.ofList (Scalar.entryText x)) ++ "]"

def Note.logLine : Note α → LogLine
  | rolled pool rolls => ⟨.debug, s!"{pool.text} rolled {entriesText rolls}"⟩
  | totaled pool count total =>
    ⟨.debug, s!"{pool.text} rolled {count} die(s) totaling {Scalar.string total}"⟩
  | joined left op right count total =>
    let joined := s!"{Scalar.string left} {op.name} {Scalar.string right}"
    ⟨.trace, s!"{joined} over {count} roll(s) = {Scalar.string total}"⟩

namespace Registry

/-- The lines about parsers that broke down over the text of a node. -/
def nodeLog {α : Type} (r : Registry α) (text : String) : List LogLine :=
  (r.faults text).map fun id => ⟨.warn, s!"node parser {id.text} panicked on {quote text}"⟩

/-- The lines about reading an expression. -/
def chainLog (r : Registry α) (text : String) : List LogLine :=
  let faults := (r.faultsIn text).map fun (id, node) =>
    ⟨.warn, s!"node parser {id.text} panicked on {quote node}"⟩
  match r.readChain text with
  | .ok chain => faults ++ [⟨.debug, s!"parsed {quote text} as {chain.text}"⟩]
  | .error _ => faults

end Registry
end DiceFormula
