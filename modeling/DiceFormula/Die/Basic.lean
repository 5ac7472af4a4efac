/-
# Dice, pools and chains

The three things that can be rolled are defined together, since each may stand
inside the others.

* A `Die` is a fixed value, an interval of integers that are equally likely, a
  pool, a chain, or a custom die whose rolls are decided elsewhere.
* A `Pool` rolls a die once, or as often as another die says.
* A `Chain` joins pools from left to right: a head, and then links that each
  append an operation and a pool to everything in front of them.

The front of a link is a chain of its own, which later links leave as it is.  A
chain therefore serves twice inside a die: as `Die.chain`, and as `Die.link`,
the chain that ends with one particular link.  The two roll alike and are told
apart in descriptions, records and comparisons.

`Chain.links` lists the links of a chain, head first, and is the view through
which the rest of the library looks at a chain.
-/

import DiceFormula.Operation

namespace DiceFormula

/-- The integers from `min` to `max`, all equally likely.  They fit into 64 bits
together with the end of their half-open range `[min, max + 1)`. -/
structure Uniform where
  min : Int
  max : Int
  min_le_max : min ≤ max
  smallest_le_min : smallestInt ≤ min
  max_lt_largest : max < largestInt
deriving DecidableEq

/-- A die whose bounds and rolls are decided by the table it is rolled at.  The
handle tells custom dice apart, the name is printed. -/
structure CustomDie where
  handle : Nat
  name : String
deriving DecidableEq, Repr

mutual

inductive Die (α : Type) where
  | fixed (value : α)
  | uniform (interval : Uniform)
  | pool (pool : Pool α)
  | link (chain : Chain α)
  | chain (chain : Chain α)
  | custom (die : CustomDie)

/-- A die that is rolled once, or a number of times that is rolled first. -/
inductive Pool (α : Type) where
  | single (value : Die α)
  | counted (count value : Die α)

/-- Pools joined by operations, from left to right. -/
inductive Chain (α : Type) where
  | head (operation : Operation) (pool : Pool α)
  | append (front : Chain α) (operation : Operation) (pool : Pool α)

end

variable {α : Type}

namespace Pool

/-- The die whose rolls are summed. -/
def value : Pool α → Die α
  | single value => value
  | counted _ value => value

/-- The die that says how often the value is rolled. -/
def count? : Pool α → Option (Die α)
  | single _ => none
  | counted count _ => some count

/-- No pool rolls more dice at once. -/
def maxRolls : Nat := 1000000

end Pool

/-- One link of a chain: a pool and the operation in front of it. -/
structure Link (α : Type) where
  operation : Operation
  pool : Pool α

namespace Chain

/-- The chain of a single pool.  Its operation, which nothing precedes, is plus. -/
def ofPool (pool : Pool α) : Chain α := head .plus pool

/-- The chain that rolls a die once. -/
def ofDie (die : Die α) : Chain α := ofPool (.single die)

/-- The last link. -/
def last : Chain α → Link α
  | head op p | append _ op p => ⟨op, p⟩

/-- The first link. -/
def first : Chain α → Link α
  | head op p => ⟨op, p⟩
  | append front _ _ => front.first

/-- The links of a chain in front of `rest`. -/
def linksOnto : Chain α → List (Link α) → List (Link α)
  | head op p, rest => ⟨op, p⟩ :: rest
  | append front op p, rest => front.linksOnto (⟨op, p⟩ :: rest)

/-- The links of a chain, head first. -/
def links (c : Chain α) : List (Link α) := c.linksOnto []

/-- A chain followed by more links. -/
def extend (c : Chain α) (links : List (Link α)) : Chain α :=
  links.foldl (fun front link => front.append link.operation link.pool) c

def length (c : Chain α) : Nat := c.links.length

theorem linksOnto_eq : ∀ (c : Chain α) (rest : List (Link α)), c.linksOnto rest = c.links ++ rest
  | head _ _, _ => rfl
  | append front op p, rest => by
    rw [links, linksOnto, linksOnto, linksOnto_eq front (_ :: rest), linksOnto_eq front [_],
      List.append_assoc, List.singleton_append]

theorem links_head (op : Operation) (p : Pool α) : (head op p).links = [⟨op, p⟩] := rfl

theorem links_append (front : Chain α) (op : Operation) (p : Pool α) :
    (front.append op p).links = front.links ++ [⟨op, p⟩] :=
  linksOnto_eq front _

theorem links_ne_nil (c : Chain α) : c.links ≠ [] := by
  cases c <;> simp [links_head, links_append]

theorem links_extend (c : Chain α) (ls : List (Link α)) :
    (c.extend ls).links = c.links ++ ls := by
  induction ls generalizing c with
  | nil => simp [extend]
  | cons l ls ih => simpa [extend, links_append] using ih (c.append l.operation l.pool)

end Chain
end DiceFormula
