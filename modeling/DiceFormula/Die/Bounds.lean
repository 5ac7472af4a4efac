/-
# Bounds

The least and the greatest value that a die can show, computed without rolling.

The value of a pool lies between the products of its extreme counts and the
extreme values of its die.  A chain is folded from the left, and the bounds of a
link are the hull of the values at the *corners*: the extremes of the value in
front, of the number of rolls in front, and of the link's own pool.  For division
the extremes of the divisor do not suffice where the divisor can come near zero.
There the divisors nearest to zero that still divide are tried as well, namely
`1` and `-1` where the divisor is always whole and the threshold below which a
divisor counts as zero otherwise; and zero itself where it can be rolled.

Bounds of custom dice are not known here, and are a parameter.
-/

import DiceFormula.Die.Basic

namespace DiceFormula

variable {α : Type} [Scalar α]

mutual

/-- Whether every roll of the die is known to be whole. -/
def Die.isWhole : Die α → Bool
  | .fixed value => Scalar.isWhole value
  | .uniform _ => true
  | .pool p => p.isWhole
  | .link c | .chain c => c.isWhole
  | .custom _ => false

@[inherit_doc Die.isWhole]
def Pool.isWhole : Pool α → Bool
  | .single value | .counted _ value => value.isWhole

@[inherit_doc Die.isWhole]
def Chain.isWhole : Chain α → Bool
  | .head op p => op != .divide && p.isWhole
  | .append front op p => op != .divide && p.isWhole && front.isWhole

end

/-- A range of values. -/
structure Bounds (α : Type) where
  low : α
  high : α

namespace Bounds

/-- The range of a single value. -/
def single (x : α) : Bounds α := ⟨x, x⟩

/-- The least range around some values, which passes over what is not a number. -/
def hull (xs : List α) : Bounds α :=
  match xs.filter fun x => x ≤ x with
  | [] => ⟨Scalar.emptyHull.1, Scalar.emptyHull.2⟩
  | x :: xs => ⟨xs.foldl Scalar.lesser x, xs.foldl Scalar.greater x⟩

/-- The range of a sum of `counts` values that each lie in `values`. -/
def times (counts values : Bounds α) : Bounds α where
  low := Scalar.lesser (counts.low * values.low) (counts.high * values.low)
  high := Scalar.greater (counts.low * values.high) (counts.high * values.high)

/-- The range of the integer parts. -/
def trunc (b : Bounds α) : Bounds α := ⟨Scalar.trunc b.low, Scalar.trunc b.high⟩

end Bounds

/-- What the bounds of a chain have to know of a link. -/
structure LinkRange (α : Type) where
  operation : Operation
  /-- The bounds of the pool. -/
  values : Bounds α
  /-- The bounds of the number of dice that the pool rolls. -/
  counts : Bounds α
  /-- Whether the pool only rolls whole values. -/
  isWhole : Bool

namespace LinkRange

/-- The operands at which a link can take its extreme values. -/
def operands (r : LinkRange α) : List α :=
  let ⟨low, high⟩ := r.values
  let ends := [low, high]
  if r.operation = .divide then
    let one : α := if r.isWhole then Scalar.ofInt 1 else Scalar.threshold
    let minusOne : α := if r.isWhole then Scalar.ofInt (-1) else Scalar.negThreshold
    ends ++ (if one ≤ high then [Scalar.greater low one] else [])
      ++ (if low ≤ minusOne then [Scalar.lesser high minusOne] else [])
      ++ (if low < (Scalar.threshold : α) ∧ (Scalar.negThreshold : α) < high
          then [Scalar.ofInt 0] else [])
  else ends

end LinkRange

/-- The bounds of a chain so far: those of its value, and those of the number of
rolls of its last pool. -/
structure ChainRange (α : Type) where
  values : Bounds α
  counts : Bounds α

namespace ChainRange

/-- In front of the head there is a zero that took one roll. -/
def start : ChainRange α := ⟨.single (Scalar.ofInt 0), .single (Scalar.ofInt 1)⟩

/-- The values of a link at all of its corners. -/
def corners (c : ChainRange α) (r : LinkRange α) : List α :=
  [c.values.low, c.values.high].flatMap fun left =>
    [c.counts.low, c.counts.high].flatMap fun count =>
      r.operands.map fun right => r.operation.combine left right count

/-- Appends a link. -/
def step (c : ChainRange α) (r : LinkRange α) : ChainRange α := ⟨.hull (c.corners r), r.counts⟩

/-- The range after each of the links. -/
def steps : ChainRange α → List (LinkRange α) → List (ChainRange α)
  | _, [] => []
  | c, r :: rs => c.step r :: steps (c.step r) rs

end ChainRange

mutual

/-- The bounds of a die, with those of custom dice given by `custom`. -/
def Die.bounds (custom : CustomDie → Bounds α) : Die α → Bounds α
  | .fixed value => .single value
  | .uniform u => ⟨Scalar.ofInt u.min, Scalar.ofInt u.max⟩
  | .pool p => (p.counts custom).times (p.valueBounds custom)
  | .link c | .chain c => ((c.rangesOnto custom []).foldl ChainRange.step .start).values
  | .custom k => custom k

/-- The bounds of a single roll of a pool's die. -/
def Pool.valueBounds (custom : CustomDie → Bounds α) : Pool α → Bounds α
  | .single value | .counted _ value => value.bounds custom

/-- The bounds of the number of dice that a pool rolls. -/
def Pool.counts (custom : CustomDie → Bounds α) : Pool α → Bounds α
  | .single _ => .single (Scalar.ofInt 1)
  | .counted count _ => (count.bounds custom).trunc

/-- The ranges of the links of a chain, head first and in front of `rest`. -/
def Chain.rangesOnto (custom : CustomDie → Bounds α) :
    Chain α → List (LinkRange α) → List (LinkRange α)
  | .head op p, rest =>
    ⟨op, (p.counts custom).times (p.valueBounds custom), p.counts custom, p.isWhole⟩ :: rest
  | .append front op p, rest =>
    front.rangesOnto custom
      (⟨op, (p.counts custom).times (p.valueBounds custom), p.counts custom, p.isWhole⟩ :: rest)

end

/-- The bounds of the sum that a pool rolls. -/
def Pool.bounds (custom : CustomDie → Bounds α) (p : Pool α) : Bounds α :=
  (p.counts custom).times (p.valueBounds custom)

/-- The range of a link on its own. -/
def Link.range (custom : CustomDie → Bounds α) (l : Link α) : LinkRange α :=
  ⟨l.operation, l.pool.bounds custom, l.pool.counts custom, l.pool.isWhole⟩

namespace Chain

/-- The bounds of a chain. -/
def bounds (custom : CustomDie → Bounds α) (c : Chain α) : Bounds α :=
  ((c.links.map (Link.range custom)).foldl ChainRange.step .start).values

/-- The bounds of the chain up to each of its links, head first. -/
def boundsByLink (custom : CustomDie → Bounds α) (c : Chain α) : List (Bounds α) :=
  (ChainRange.start.steps (c.links.map (Link.range custom))).map (·.values)

theorem rangesOnto_eq (custom : CustomDie → Bounds α) :
    ∀ (c : Chain α) (rest : List (LinkRange α)),
      c.rangesOnto custom rest = c.links.map (Link.range custom) ++ rest
  | .head op p, rest => by rw [rangesOnto]; rfl
  | .append front op p, rest => by
    rw [rangesOnto, rangesOnto_eq custom front, links_append]
    simp [Link.range, Pool.bounds]

end Chain

namespace Die

theorem bounds_pool (custom : CustomDie → Bounds α) (p : Pool α) :
    (pool p).bounds custom = p.bounds custom := by
  rw [bounds, Pool.bounds]

theorem bounds_link (custom : CustomDie → Bounds α) (c : Chain α) :
    (link c).bounds custom = c.bounds custom := by
  rw [bounds, Chain.rangesOnto_eq, List.append_nil, Chain.bounds]

theorem bounds_chain (custom : CustomDie → Bounds α) (c : Chain α) :
    (chain c).bounds custom = c.bounds custom := by
  rw [bounds, Chain.rangesOnto_eq, List.append_nil, Chain.bounds]

end Die
end DiceFormula
