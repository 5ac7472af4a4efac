/-
# Rollers

A roller answers draws with integers.

* `steps` walks through every range in order: with the number `current` it gives
  entry number `current - 1` of the range, counted around, and goes on by `step`.
* `words` has a list of 64-bit words, and zeros behind them.
* `seeded` takes its words from a generator.

A word `v` becomes an integer below `range` by way of the product `v * range`: its
upper half is the integer, and its lower half decides whether the word may be used.
The lower halves below `range`, shifted to the left as far as it goes, are good;
otherwise the next word is tried.  The shifted range is at least `2 ^ 63`, so a word
is refused in less than half of all cases.
-/

import DiceFormula.Random.Generator

namespace DiceFormula
namespace Draw64

/-- The upper half of a product of two words. -/
def upper (product : Nat) : Nat := product >>> 64

/-- The lower half of a product of two words. -/
def lower (product : Nat) : Nat := product % 1 <<< 64

/-- The lower halves below this number are good. -/
def zone (range : Nat) : Nat := range <<< (63 - range.log2)

/-- An integer below `range` from the words that `next` gives.  At most `limit` words
are refused. -/
def below {σ : Type} (next : σ → UInt64 × σ) (range : Nat) : (limit : Nat) → σ → Nat × σ
  | 0, s =>
    let (v, s) := next s
    (upper (v.toNat * range), s)
  | limit + 1, s =>
    let (v, s) := next s
    let product := v.toNat * range
    if lower product < zone range then (upper product, s) else below next range limit s

/-- **A draw stays below its range.** -/
theorem below_lt {σ : Type} (next : σ → UInt64 × σ) {range : Nat} (pos : 0 < range) (limit : Nat)
    (s : σ) : (below next range limit s).1 < range := by
  have quotient (v : UInt64) : upper (v.toNat * range) < range := by
    rw [upper, Nat.shiftRight_eq_div_pow, Nat.div_lt_iff_lt_mul (by decide), Nat.mul_comm]
    exact Nat.mul_lt_mul_of_pos_left v.toNat_lt pos
  induction limit generalizing s with
  | zero => exact quotient _
  | succ limit ih =>
    rw [below]
    rcases next s with ⟨v, s⟩
    dsimp only
    split
    · exact quotient v
    · exact ih s

/-- An integer from `low` up to, but not including, `high`; `low` if there is none. -/
def between {σ : Type} (next : σ → UInt64 × σ) (limit : Nat) (low high : Int) (s : σ) :
    Int × σ :=
  if high ≤ low then (low, s)
  else
    let (k, s) := below next (high - low).toNat limit s
    (low + k, s)

theorem between_mem {σ : Type} (next : σ → UInt64 × σ) (limit : Nat) {low high : Int}
    (nonempty : low < high) (s : σ) :
    low ≤ (between next limit low high s).1 ∧ (between next limit low high s).1 < high := by
  have pos : 0 < (high - low).toNat := by omega
  have := below_lt next pos limit s
  rw [between, if_neg (Int.not_le.2 nonempty)]
  dsimp only
  omega

end Draw64

/-- A source of integers. -/
inductive Source where
  | steps (current step : Int)
  | words (words : List UInt64)
  | seeded (generator : Generator)
deriving DecidableEq

namespace Source

/-- The first word of a list, and zero behind its end. -/
def nextWord : List UInt64 → UInt64 × List UInt64
  | [] => (0, [])
  | w :: ws => (w, ws)

/-- So many words of a generator are never refused one after the other. -/
def patience : Nat := 1000

/-- Draws an integer from `low` up to, but not including, `high`. -/
def nextInt (low high : Int) : Source → Int × Source
  | steps current step =>
    (low + (current - 1) % max (high - low) 1, steps (current + step) step)
  | words ws =>
    let (n, ws) := Draw64.between nextWord ws.length low high ws
    (n, words ws)
  | seeded g =>
    let (n, g) := Draw64.between Generator.next64 patience low high g
    (n, seeded g)

/-- **Every source answers in range.** -/
theorem nextInt_mem {low high : Int} (nonempty : low < high) (r : Source) :
    low ≤ (r.nextInt low high).1 ∧ (r.nextInt low high).1 < high := by
  cases r with
  | steps current step =>
    have := Int.emod_nonneg (current - 1) (b := max (high - low) 1) (by omega)
    have := Int.emod_lt_of_pos (current - 1) (b := max (high - low) 1) (by omega)
    simp only [nextInt]
    omega
  | words ws => exact Draw64.between_mem nextWord ws.length nonempty ws
  | seeded g => exact Draw64.between_mem Generator.next64 patience nonempty g

end Source

end DiceFormula
