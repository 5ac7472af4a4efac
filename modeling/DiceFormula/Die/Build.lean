/-
# Building dice

Dice are built from checked arguments.

* A fixed value is finite.
* An interval is not empty, and its half-open range fits into 64 bits.
* The count of a pool is at least one whatever it rolls: the integer part of its
  lower bound is not below one.
* A custom die starts with finite bounds in order.

A chain is built from left to right.  `Chain.apply` appends a die that is rolled
once; `Chain.take` asks for a number of dice and waits, as a `PendingLink`, to be told
which.
-/

import DiceFormula.Die.Bounds
import DiceFormula.Error

namespace DiceFormula

variable {α : Type}

namespace Uniform

/-- The integers from `min` to `max`. -/
def ofInterval (min max : Int) : Except (ArgumentError α) Uniform :=
  if order : max < min then .error (.emptyInterval min max)
  else if fits : smallestInt ≤ min ∧ max < largestInt then
    .ok ⟨min, max, Int.not_lt.1 order, fits.1, fits.2⟩
  else .error .intervalTooLarge

/-- The faces from `1` to `faces`. -/
def ofFaces (faces : Int) : Except (ArgumentError α) Uniform :=
  if faces < 1 then .error (.noFaces faces) else ofInterval 1 faces

/-- The die with `n` faces. -/
def d (n : Int) (fits : 1 ≤ n ∧ n < largestInt) : Uniform :=
  ⟨1, n, fits.1, by decide, fits.2⟩

/-- The dice that games use. -/
def standard : List Uniform :=
  [d 2 (by decide), d 3 (by decide), d 4 (by decide), d 6 (by decide), d 8 (by decide),
    d 10 (by decide), d 12 (by decide), d 20 (by decide), d 100 (by decide)]

end Uniform

variable [Scalar α]

namespace Die

/-- A die that always shows an integer. -/
def ofInt (n : Int) : Die α := fixed (Scalar.ofInt n)

/-- A die that always shows a finite value. -/
def ofFixed (value : α) : Except (ArgumentError α) (Die α) :=
  if Scalar.isFinite value then .ok (fixed value) else .error (.notFinite value)

/-- A custom die. -/
def ofCustom (custom : CustomDie → Bounds α) (k : CustomDie) :
    Except (ArgumentError α) (Die α) :=
  let bounds := custom k
  if !Scalar.isFinite bounds.low || !Scalar.isFinite bounds.high then .error (.customNotFinite k)
  else if bounds.high < bounds.low then .error (.customInverted k)
  else .ok (.custom k)

end Die

/-- Bounds for the custom dice of a die that has none. -/
def noCustom : CustomDie → Bounds α := fun _ => .hull []

namespace Pool

/-- The die `value`, rolled as often as `count` says. -/
def ofCount (custom : CustomDie → Bounds α) (count value : Die α) :
    Except (ArgumentError α) (Pool α) :=
  if Scalar.trunc (count.bounds custom).low < Scalar.ofInt 1 then .error (.countBelowOne count)
  else .ok (.counted count value)

end Pool

/-- A link that knows how many dice it takes, but not yet which. -/
structure PendingLink (α : Type) where
  previous : Option (Chain α)
  operation : Operation
  amount : Die α

/-- Starts a chain whose head takes `amount` dice. -/
def take (amount : Die α) : PendingLink α := ⟨none, .plus, amount⟩

namespace Chain

/-- Appends a die that is rolled once. -/
def apply (c : Chain α) (op : Operation) (die : Die α) : Chain α := c.append op (.single die)

/-- Starts a link that takes `amount` dice. -/
def take (c : Chain α) (op : Operation) (amount : Die α) : PendingLink α := ⟨some c, op, amount⟩

end Chain

namespace PendingLink

/-- Takes dice of one kind. -/
def die (custom : CustomDie → Bounds α) (s : PendingLink α) (value : Die α) :
    Except (ArgumentError α) (Chain α) := do
  let pool ← Pool.ofCount custom s.amount value
  match s.previous with
  | some chain => return chain.append s.operation pool
  | none => return .ofPool pool

/-- Takes dice with the faces from `1` to `faces`. -/
def faces (custom : CustomDie → Bounds α) (s : PendingLink α) (faces : Int) :
    Except (ArgumentError α) (Chain α) := do
  s.die custom (.uniform (← Uniform.ofFaces faces))

/-- Takes dice that show the integers from `min` to `max`. -/
def interval (custom : CustomDie → Bounds α) (s : PendingLink α) (min max : Int) :
    Except (ArgumentError α) (Chain α) := do
  s.die custom (.uniform (← Uniform.ofInterval min max))

/-- Takes dice that always show `value`. -/
def fixed (custom : CustomDie → Bounds α) (s : PendingLink α) (value : α) :
    Except (ArgumentError α) (Chain α) := do
  s.die custom (← Die.ofFixed value)

end PendingLink
end DiceFormula
