/-
# Scripted custom dice

A script says what a custom die does: its bounds and its value, or the range that
it draws from, or the message with which it fails.  It counts its rolls, and from a
given count on its bounds are the wrong way around.

A `Bench` is the state of a table with a source of integers and scripted dice; the
handle of a custom die is the place of its script.
-/

import DiceFormula.Die.Build
import DiceFormula.Roll.Table

namespace DiceFormula

/-- What a custom die does. -/
structure Script (α : Type) where
  name : String
  low : α
  high : α
  value : α
  /-- The range to draw from, in place of the value. -/
  range : Option (Int × Int)
  /-- The message to fail with. -/
  failure : Option String
  /-- The count of rolls from which on the bounds are swapped. -/
  invertAfter : Option Nat

/-- The state of a table with scripted dice: that of its source, and the scripts
with their counts of rolls. -/
structure Bench (σ α : Type) where
  source : σ
  scripts : Array (Script α × Nat)

variable {σ α : Type}

/-- The bounds after `count` rolls. -/
def Script.bounds (s : Script α) (count : Nat) : Bounds α :=
  match s.invertAfter with
  | some limit => if limit ≤ count then ⟨s.high, s.low⟩ else ⟨s.low, s.high⟩
  | none => ⟨s.low, s.high⟩

variable [Scalar α]

namespace Bench

/-- The bounds of the scripted dice. -/
def bounds (b : Bench σ α) (k : CustomDie) : Bounds α :=
  match b.scripts[k.handle]? with
  | some (script, count) => script.bounds count
  | none => .hull []

/-- Counts a roll of a scripted die. -/
def count (b : Bench σ α) (k : CustomDie) : Bench σ α :=
  { b with scripts := b.scripts.modify k.handle fun (script, n) => (script, n + 1) }

/-- Adds a script; if its bounds allow a custom die, that is the result. -/
def add (b : Bench σ α) (s : Script α) : Except (ArgumentError α) (Die α) × Bench σ α :=
  let k : CustomDie := ⟨b.scripts.size, s.name⟩
  let b := { b with scripts := b.scripts.push (s, 0) }
  (Die.ofCustom b.bounds k, b)

/-- Draws from the source. -/
def draw (nextInt : (low high : Int) → σ → Int × σ) (low high : Int) :
    RollM (Bench σ α) α Int := fun b =>
  let (result, source) := nextInt low high b.source
  ⟨.ok result, { b with source := source }, [.draw ⟨low, high, result⟩]⟩

/-- Rolls a scripted die. -/
def roll (nextInt : (low high : Int) → σ → Int × σ) (k : CustomDie) :
    RollM (Bench σ α) α α := fun b =>
  match b.scripts[k.handle]? with
  | none => RollM.fail (.refused k.name) b
  | some (script, _) =>
    let b := b.count k
    match script.failure, script.range with
    | some message, _ => RollM.fail (.refused message) b
    | none, some (low, high) => (Scalar.ofInt <$> draw nextInt low high) b
    | none, none => (pure script.value : RollM (Bench σ α) α α) b

/-- The table with scripted dice and a source of integers. -/
def table (nextInt : (low high : Int) → σ → Int × σ) : Table (Bench σ α) α where
  nextInt low high b :=
    let (result, source) := nextInt low high b.source
    (result, { b with source := source })
  customBounds := bounds
  customRoll := roll nextInt

end Bench
end DiceFormula
