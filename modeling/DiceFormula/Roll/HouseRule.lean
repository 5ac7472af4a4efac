/-
# House rules

Rules that change a list of rolls after the fact.

* `modify` joins rolled values to the rolls: `plus` and `minus` to the first one
  only, all other operations to each.
* `addOnce` adds rolls behind the first roll that calls for them.
* `explode` adds rolls behind every roll that calls for them, also among those that
  were added.  Nothing makes that end, so it is told how many levels deep added
  rolls may call for more, and gives `none` beyond.
-/

import DiceFormula.Roll.Basic

namespace DiceFormula
namespace HouseRule

variable {σ α : Type} [Scalar α]

/-- Joins values rolled by `die` to a list of rolls. -/
def modify (rolls : List α) (op : Operation) (die : RollM σ α α) :
    RollM σ α (List α) := do
  let one : α := Scalar.ofInt 1
  match op with
  | .plus | .minus =>
    let value ← die
    match rolls with
    | [] => return [op.combine (Scalar.ofInt 0) value one]
    | first :: others => return op.combine first value one :: others
  | _ => RollM.collectMap (fun roll => do return op.combine roll (← die) one) rolls

/-- Adds rolls behind the first roll for which `calls` holds. -/
def addOnce (rolls : List α) (calls : α → Bool) (more : RollM σ α (List α)) :
    RollM σ α (List α) := do
  match rolls.span fun roll => !calls roll with
  | (_, []) => return rolls
  | (before, roll :: after) => return before ++ roll :: (← more) ++ after

/-- Adds rolls behind every roll for which `calls` holds, and behind `done`, which is
listed backwards.  Rolls that were added call for more, down to `depth` levels. -/
def explodeOnto (calls : α → Bool) (more : RollM σ α (List α)) :
    Nat → List α → List α → RollM σ α (Option (List α))
  | 0, _, _ => return none
  | depth + 1, done, rolls =>
    RollM.fold
      (fun done? roll => do
        let some done := done? | return none
        if calls roll then explodeOnto calls more depth (roll :: done) (← more)
        else return some (roll :: done))
      rolls (some done)

/-- Adds rolls behind every roll for which `calls` holds, down to `depth` levels. -/
def explode (depth : Nat) (rolls : List α) (calls : α → Bool) (more : RollM σ α (List α)) :
    RollM σ α (Option (List α)) := do
  return (← explodeOnto calls more depth [] rolls).map List.reverse

end HouseRule
end DiceFormula
