/-
# Rolling

A fixed value shows itself, and an interval draws.  A pool first rolls its count,
whose integer part is the number of dice, then rolls its die that often and adds
the rolls up from left to right.  A chain goes through its links from the head,
joining the value of each pool to the total; the each operations are told how many
dice the pool before rolled.

A pool rolls at least one die, and at most `Pool.maxRolls`.
-/

import DiceFormula.Roll.Table

namespace DiceFormula

variable {σ α : Type} [Scalar α]

namespace Pool

/-- The number of dice for a rolled count. -/
def countOf (p : Pool α) (rolled : α) : Except (RollError α) Nat :=
  let count := Scalar.trunc rolled
  if (Scalar.ofInt maxRolls : α) < count then .error (.countTooLarge p count)
  else if Scalar.ofInt 1 ≤ count then .ok (Scalar.toCount count)
  else .error (.countBelowOne p count)

/-- Rolls the count of a pool, given how its count die rolls. -/
def resolve (p : Pool α) (count : RollM σ α α) : RollM σ α Nat := do
  match p.countOf (← count) with
  | .ok n => return n
  | .error e => RollM.fail e

/-- Rolls `n` dice of a pool, given how its die rolls; gives their sum and number. -/
def totalOf (p : Pool α) (n : Nat) (value : RollM σ α α) : RollM σ α (α × Nat) := do
  let sum ← RollM.total n value
  RollM.note (.totaled p n sum)
  return (sum, n)

end Pool

/-- Joins the roll of a link's pool to the total and the count before it. -/
def joinLink (before : α × Nat) (link : Operation × RollM σ α (α × Nat)) :
    RollM σ α (α × Nat) := do
  let (total, count) := before
  let (op, pool) := link
  let (value, rolled) ← pool
  let next := op.combine total value (Scalar.ofInt count)
  RollM.note (.joined total op value count next)
  return (next, rolled)

/-- Rolls links one after the other, head first. -/
def joinLinks (links : List (Operation × RollM σ α (α × Nat))) : RollM σ α α := do
  return (← RollM.fold joinLink links (Scalar.ofInt 0, 1)).1

/-- One roll or more. -/
structure Rolls (α : Type) where
  list : List α
  ne_nil : list ≠ []

namespace Rolls

/-- The rolls in a list, if there are any. -/
def ofList? {α : Type} : List α → Option (Rolls α)
  | [] => none
  | x :: xs => some ⟨x :: xs, List.cons_ne_nil x xs⟩

end Rolls

mutual

/-- Rolls a die. -/
def Die.roll (t : Table σ α) : Die α → RollM σ α α
  | .fixed value => pure value
  | .uniform u => do return Scalar.ofInt (← t.draw u.min (u.max + 1))
  | .pool p => do return (← p.rollCounted t).1
  | .link c | .chain c => joinLinks (c.rollsOnto t [])
  | .custom k => t.rollCustom k

/-- Rolls a pool, and gives the sum and the number of its rolls. -/
def Pool.rollCounted (t : Table σ α) : Pool α → RollM σ α (α × Nat)
  | .single value => (Pool.single value).totalOf 1 (value.roll t)
  | .counted count value => do
    let n ← (Pool.counted count value).resolve (count.roll t)
    (Pool.counted count value).totalOf n (value.roll t)

/-- The links of a chain, head first and in front of `rest`, by how they roll. -/
def Chain.rollsOnto (t : Table σ α) :
    Chain α → List (Operation × RollM σ α (α × Nat)) → List (Operation × RollM σ α (α × Nat))
  | .head op p, rest => (op, p.rollCounted t) :: rest
  | .append front op p, rest => front.rollsOnto t ((op, p.rollCounted t) :: rest)

end

namespace Pool

/-- The number of dice that a pool rolls this time. -/
def rollCount (t : Table σ α) : Pool α → RollM σ α Nat
  | single _ => pure 1
  | counted count value => (counted count value).resolve (count.roll t)

theorem rollCounted_eq (t : Table σ α) (p : Pool α) :
    p.rollCounted t = p.rollCount t >>= fun n => p.totalOf n (p.value.roll t) := by
  cases p with
  | single value => rw [rollCounted, rollCount, pure_bind, Pool.value]
  | counted count value => rw [rollCounted, rollCount, Pool.value]

/-- The sum of the rolls of a pool. -/
def roll (t : Table σ α) (p : Pool α) : RollM σ α α := do return (← p.rollCounted t).1

/-- The rolls of a pool, one by one. -/
def rollSeparately (t : Table σ α) (p : Pool α) : RollM σ α (Rolls α) := do
  let n ← p.rollCount t
  let rolls ← RollM.collect n (p.value.roll t)
  RollM.note (.rolled p rolls)
  match Rolls.ofList? rolls with
  | some rolls => return rolls
  | none => RollM.fail (.noRolls p)

end Pool

namespace Chain

/-- The value of a chain. -/
def roll (t : Table σ α) (c : Chain α) : RollM σ α α :=
  joinLinks (c.links.map fun l => (l.operation, l.pool.rollCounted t))

theorem rollsOnto_eq (t : Table σ α) :
    ∀ (c : Chain α) (rest : List (Operation × RollM σ α (α × Nat))),
      c.rollsOnto t rest = c.links.map (fun l => (l.operation, l.pool.rollCounted t)) ++ rest
  | .head op p, rest => by rw [rollsOnto]; rfl
  | .append front op p, rest => by
    rw [rollsOnto, rollsOnto_eq t front, links_append]
    simp

end Chain

namespace Die

theorem roll_pool (t : Table σ α) (p : Pool α) : (pool p).roll t = p.roll t := by
  rw [roll, Pool.roll]

theorem roll_link (t : Table σ α) (c : Chain α) : (link c).roll t = c.roll t := by
  rw [roll, Chain.rollsOnto_eq, List.append_nil, Chain.roll]

theorem roll_chain (t : Table σ α) (c : Chain α) : (chain c).roll t = c.roll t := by
  rw [roll, Chain.rollsOnto_eq, List.append_nil, Chain.roll]

end Die
end DiceFormula
