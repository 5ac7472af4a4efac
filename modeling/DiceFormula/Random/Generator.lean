/-
# Seeded generators

A generator is a key and the number of words taken from its stream so far.  The
stream of a key is the words of its blocks in order, so what a generator gives
next depends on nothing else.

A seed source is a generator that only hands out keys: `spawn` takes the next
eight words and makes them the key of a new generator.
-/

import DiceFormula.Random.ChaCha

namespace DiceFormula

/-- A place in the stream of a key.  The block around that place is kept, so that it
is computed once and not again for each of its words. -/
structure Generator where
  key : ChaCha.Key
  position : Nat
  block : ChaCha.Block
  block_eq : block = ChaCha.block key (UInt64.ofNat (position / 16))
deriving DecidableEq

namespace Generator

/-- The place `position` in the stream of a key. -/
def place (key : ChaCha.Key) (position : Nat) : Generator :=
  ⟨key, position, ChaCha.block key (UInt64.ofNat (position / 16)), rfl⟩

/-- A generator is known by its key and its position. -/
theorem eq_place (g : Generator) : g = place g.key g.position := by
  rcases g with ⟨key, position, block, rfl⟩
  rfl

/-- The start of the stream of a key. -/
def ofKey (key : ChaCha.Key) : Generator := place key 0

/-- The word of a key's stream at some place. -/
def wordAt (key : ChaCha.Key) (i : Nat) : UInt32 :=
  (ChaCha.block key (UInt64.ofNat (i / 16))).get ⟨i % 16, Nat.mod_lt i (by decide)⟩

/-- The word at the place of a generator. -/
def word (g : Generator) : UInt32 := g.block.get ⟨g.position % 16, Nat.mod_lt _ (by decide)⟩

theorem word_eq (g : Generator) : g.word = wordAt g.key g.position := by
  rw [word, wordAt, g.block_eq]

/-- The next place.  Its block is a new one behind the last word of the old. -/
def advance (g : Generator) : Generator :=
  if last : g.position % 16 = 15 then place g.key (g.position + 1)
  else
    ⟨g.key, g.position + 1, g.block, by
      rw [g.block_eq, show (g.position + 1) / 16 = g.position / 16 by omega]⟩

theorem advance_eq (g : Generator) : g.advance = place g.key (g.position + 1) := by
  unfold advance
  split
  · rfl
  · exact eq_place _

/-- Takes a word. -/
def next32 (g : Generator) : UInt32 × Generator := (g.word, g.advance)

theorem next32_eq (g : Generator) :
    g.next32 = (wordAt g.key g.position, place g.key (g.position + 1)) := by
  rw [next32, word_eq, advance_eq]

/-- Takes two words, the low one first. -/
def next64 (g : Generator) : UInt64 × Generator :=
  let (low, g) := g.next32
  let (high, g) := g.next32
  (high.toUInt64 <<< 32 ||| low.toUInt64, g)

/-- Takes `n` words behind those in `ws`, which are listed backwards. -/
def takeOnto : Nat → List UInt32 → Generator → List UInt32 × Generator
  | 0, ws, g => (ws, g)
  | n + 1, ws, g =>
    let (w, g) := g.next32
    takeOnto n (w :: ws) g

/-- Takes `n` words. -/
def take (g : Generator) (n : Nat) : List UInt32 × Generator :=
  let (ws, g) := takeOnto n [] g
  (ws.reverse, g)

theorem takeOnto_eq (n : Nat) (ws : List UInt32) (g : Generator) :
    takeOnto n ws g =
      (((List.range' g.position n).map (wordAt g.key)).reverse ++ ws,
        place g.key (g.position + n)) := by
  induction n generalizing ws g with
  | zero => rw [takeOnto, Nat.add_zero, ← eq_place]; rfl
  | succ n ih =>
    rw [takeOnto, next32_eq]
    dsimp only
    rw [ih, List.range'_succ]
    simp [place, Nat.add_assoc, Nat.add_comm 1]

/-- **The next words are those of the stream.** -/
theorem take_eq (g : Generator) (n : Nat) :
    g.take n = ((List.range' g.position n).map (wordAt g.key), place g.key (g.position + n)) := by
  rw [take, takeOnto_eq]
  simp

theorem length_take (g : Generator) (n : Nat) : (g.take n).1.length = n := by
  simp [take_eq]

end Generator

/-- A generator that only hands out keys. -/
structure Seeder where
  master : Generator
deriving DecidableEq

namespace Seeder

/-- One step of the congruential generator that spreads a seed. -/
def advance (state : UInt64) : UInt64 := state * 6364136223846793005 + 11634580027462260723

/-- The word for a state: its upper bits, rotated to the right by the highest five. -/
def output (state : UInt64) : UInt32 :=
  let x := (((state >>> 18) ^^^ state) >>> 27).toUInt32
  let r := (state >>> 59).toUInt32
  (x >>> r) ||| (x <<< ((32 - r) % 32))

/-- The states after each of the first `n` steps. -/
def states (state : UInt64) : Nat → List UInt64
  | 0 => []
  | n + 1 => advance state :: states (advance state) n

theorem length_states (state : UInt64) (n : Nat) : (states state n).length = n := by
  induction n generalizing state with
  | zero => rfl
  | succ n ih => simp [states, ih]

/-- The key for a seed. -/
def keyOf (seed : UInt64) : ChaCha.Key :=
  ⟨((states seed 8).map output).toArray, by simp [length_states]⟩

def ofSeed (seed : UInt64) : Seeder := ⟨.ofKey (keyOf seed)⟩

/-- Hands out a generator. -/
def spawn (s : Seeder) : Generator × Seeder :=
  let taken := s.master.take 8
  (.ofKey ⟨taken.1.toArray, by simp [taken, Generator.length_take]⟩, ⟨taken.2⟩)

/-- Hands out `n` generators that nobody takes. -/
def drop (s : Seeder) (n : Nat) : Seeder :=
  ⟨.place s.master.key (s.master.position + 8 * n)⟩

@[simp] theorem drop_zero (s : Seeder) : s.drop 0 = s := by
  rw [drop, Nat.mul_zero, Nat.add_zero, ← Generator.eq_place]

theorem drop_succ (s : Seeder) (n : Nat) : s.drop (n + 1) = s.spawn.2.drop n := by
  have places : s.master.position + 8 * (n + 1) = s.master.position + 8 + 8 * n := by omega
  rw [drop, places]
  simp only [drop, spawn, Generator.take_eq, Generator.place]

end Seeder
end DiceFormula
