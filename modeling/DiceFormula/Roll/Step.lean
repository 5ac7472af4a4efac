/-
# Rolling step by step

A chain can keep a record of its rolls: one step for each link, with the rolls of
its pool, their total and the operation of the link.  The steps are joined once
all of them are rolled.
-/

import DiceFormula.Roll.Basic

namespace DiceFormula

variable {σ α : Type}

/-- The rolls of one link. -/
structure Step (α : Type) where
  operation : Operation
  rolls : Rolls α
  total : α

/-- The steps of a chain, head first, and the value they join to. -/
structure Transcript (α : Type) where
  total : α
  steps : List (Step α)

variable [Scalar α]

namespace Step

/-- The step with the sum of its rolls as total. -/
def ofRolls (operation : Operation) (rolls : Rolls α) : Step α :=
  ⟨operation, rolls, Scalar.sum rolls.list⟩

/-- How many rolls there were, and their total. -/
def text (s : Step α) : String :=
  s!"{s.rolls.list.length} roll(s) totaling {String.ofList (Scalar.shortText s.total)}"

/-- Joins a step to the total and the count before it. -/
def join (before : α × Nat) (s : Step α) : α × Nat :=
  (s.operation.combine before.1 s.total (Scalar.ofInt before.2), s.rolls.list.length)

end Step

namespace Transcript

/-- The value that steps join to. -/
def ofSteps (steps : List (Step α)) : Transcript α :=
  ⟨(steps.foldl Step.join (Scalar.ofInt 0, 1)).1, steps⟩

end Transcript

/-- Rolls the pool of a link and keeps its rolls. -/
def Link.rollStep (t : Table σ α) (l : Link α) : RollM σ α (Step α) := do
  return .ofRolls l.operation (← l.pool.rollSeparately t)

/-- Rolls a chain and keeps the rolls of every link. -/
def Chain.rollSteps (t : Table σ α) (c : Chain α) : RollM σ α (Transcript α) := do
  return .ofSteps (← RollM.collectMap (Link.rollStep t) c.links)

end DiceFormula
