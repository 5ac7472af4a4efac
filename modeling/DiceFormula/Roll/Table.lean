/-
# Tables

A table is where dice are rolled: it has a source of integers and knows the custom
dice.  Its state `σ` holds both the state of the source and that of the custom
dice, which may change whenever one of them rolls.
-/

import DiceFormula.Die.Bounds
import DiceFormula.Roll.Run

namespace DiceFormula

structure Table (σ α : Type) where
  /-- Draws an integer from `low` up to, but not including, `high`.  An empty range
  yields `low`. -/
  nextInt : (low high : Int) → σ → Int × σ
  /-- The present bounds of a custom die. -/
  customBounds : σ → CustomDie → Bounds α
  /-- Rolls a custom die. -/
  customRoll : CustomDie → RollM σ α α

namespace Table

variable {σ α : Type}

/-- Draws an integer from `low` up to, but not including, `high`. -/
def draw (t : Table σ α) (low high : Int) : RollM σ α Int := fun s =>
  let (result, s) := t.nextInt low high s
  ⟨.ok result, s, [.draw ⟨low, high, result⟩]⟩

/-- Rolls a die with the faces from `1` to `faces`; it has at least one. -/
def rollDie (t : Table σ α) (faces : Int) : RollM σ α Int := t.draw 1 (max faces 1 + 1)

/-- Rolls `count` dice with the faces from `1` to `faces`, and adds them up. -/
def rollDice (t : Table σ α) (count : Nat) (faces : Int) : RollM σ α Int :=
  RollM.times (fun sum => do return sum + (← t.rollDie faces)) count 0

/-- Is true in one of `chance` cases. -/
def oneIn (t : Table σ α) (chance : Int) : RollM σ α Bool := do
  return (← t.draw 0 (max chance 1)) == 0

/-- Rolls a custom die, provided that its bounds are in order at the moment. -/
def rollCustom [Scalar α] (t : Table σ α) (k : CustomDie) : RollM σ α α := fun s =>
  let bounds := t.customBounds s k
  if bounds.high < bounds.low then RollM.fail (.customInverted k) s else t.customRoll k s

/-- A source of integers, at a table without custom dice. -/
def ofSource [Scalar α] (nextInt : (low high : Int) → σ → Int × σ) : Table σ α where
  nextInt := nextInt
  customBounds _ _ := .hull []
  customRoll k := RollM.fail (.refused k.name)

end Table
end DiceFormula
