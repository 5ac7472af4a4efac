/-
# Spawned generators do not depend on each other

A seeder hands out generators, and whoever has one draws from it, at the same time as others
draw from theirs and while more are handed out.  A `Schedule` is one order in which all of this
may happen; only generators that are there can be drawn from.

The generator number `i` has for its key the words number `8 * i` up to `8 * i + 7` of the stream
of the seed (`Seeder.keyAt`), since each generator before it took eight, and nothing else takes
words of that stream.  So whatever the schedule is, the words drawn from it are the first ones of
the stream of that key.  How many they are, and what becomes of them, depends on what is drawn
from this generator, and on nothing that is drawn from others (`Schedule.answers_independent`).
Rolls of dice are such drawings, so that they come out as if the dice were rolled one after the
other with this generator and nothing else happened (`Schedule.rolls_independent`).

The reason is that a step of a schedule changes one generator, and that a generator that is not
there yet will be what the seeder is going to make it.  So at every place of a schedule it is known
what generator each number stands for (`Seeder.nth`), and it is left alone by all steps but the
draws from it.
-/

import Mathlib.Data.List.Forall2
import DiceFormula.Proofs.Random.Drawing

namespace DiceFormula

variable {β : Type}

namespace Seeder

/-- The key of the generator number `i` that a seed gives. -/
def keyAt (seed : UInt64) (i : Nat) : ChaCha.Key :=
  Vector.ofFn fun j => Generator.wordAt (keyOf seed) (8 * i + j)

/-- The generator number `i`, of those that were handed out and those that will be. -/
def nth (seeder : Seeder) {n : Nat} (gs : Vector Generator n) (i : Nat) : Generator :=
  if h : i < n then gs[i] else (seeder.drop (i - n)).spawn.1

end Seeder

/-- One order of events between a seeder that has handed out `n` generators and those who draw
from them. -/
inductive Schedule (β : Type) : Nat → Type where
  | stop {n : Nat} : Schedule β n
  /-- One more generator is handed out. -/
  | spawn {n : Nat} (rest : Schedule β (n + 1)) : Schedule β n
  /-- There is a drawing from the generator number `i`. -/
  | draw {n : Nat} (i : Fin n) (drawing : Drawing β) (rest : Schedule β n) : Schedule β n

namespace Schedule

/-- The answers in the order in which they are given, each with the number of its generator. -/
def run : {n : Nat} → Schedule β n → Seeder → Vector Generator n → List (Nat × Answer β)
  | _, stop, _, _ => []
  | _, spawn rest, seeder, gs =>
    let (g, seeder) := seeder.spawn
    rest.run seeder (gs.push g)
  | _, draw i drawing rest, seeder, gs =>
    let (answer, g) := drawing.run (gs.get i)
    (i.val, answer) :: rest.run seeder (gs.set i g i.isLt)

/-- The answers of a seed, from the first generator on. -/
def answers (s : Schedule β 0) (seed : UInt64) : List (Nat × Answer β) :=
  s.run (.ofSeed seed) #v[]

/-- The drawings from the generator number `i`. -/
def drawings (i : Nat) : {n : Nat} → Schedule β n → List (Drawing β)
  | _, stop => []
  | _, spawn rest => rest.drawings i
  | _, draw j drawing rest =>
    if j.val = i then drawing :: rest.drawings i else rest.drawings i

end Schedule

/-- The answers of the generator number `i`. -/
def answersOf (i : Nat) (answers : List (Nat × Answer β)) : List (Answer β) :=
  (answers.filter (·.1 == i)).map (·.2)

/-- The words that were taken from the generator number `i`. -/
def wordsOf (i : Nat) (answers : List (Nat × Answer β)) : List UInt32 :=
  (answersOf i answers).flatMap (·.words)

/-- The answers of a generator that nobody else is there with. -/
def Generator.alone (g : Generator) : List (Drawing β) → List (Answer β)
  | [] => []
  | d :: ds => (d.run g).1 :: (d.run g).2.alone ds

/-! ### One generator -/

/-- **Drawings one after the other take the next words of the stream.** -/
theorem Generator.words_alone (g : Generator) (ds : List (Drawing β)) :
    ∃ k, (g.alone ds).flatMap (·.words) = (List.range' g.position k).map (wordAt g.key) := by
  induction ds generalizing g with
  | nil => exact ⟨0, rfl⟩
  | cons d ds ih =>
    obtain ⟨k, hk⟩ := ih (d.run g).2
    rw [d.generator_run] at hk
    refine ⟨(d.run g).1.words.length + k, ?_⟩
    calc (g.alone (d :: ds)).flatMap (·.words)
        = (d.run g).1.words ++ ((d.run g).2.alone ds).flatMap (·.words) := List.flatMap_cons
      _ = (List.range' g.position (d.run g).1.words.length).map (wordAt g.key) ++
          (List.range' (g.position + (d.run g).1.words.length) k).map (wordAt g.key) := by
        rw [← d.words_run, d.generator_run, hk]
        rfl
      _ = _ := by rw [← List.map_append, List.range'_append_1]

/-! ### The generators of a seed -/

namespace Seeder

/-- **Each generator takes eight words of the stream of the seed for its key.** -/
theorem spawn_drop_ofSeed (seed : UInt64) (i : Nat) :
    ((ofSeed seed).drop i).spawn.1 = .ofKey (keyAt seed i) := by
  refine congrArg Generator.ofKey (Vector.ext fun j hj => ?_)
  simp [keyAt, ofSeed, drop, Generator.take_eq, Generator.ofKey, Generator.place]

variable {n : Nat}

/-- A generator that is handed out is the one that was going to be. -/
theorem nth_spawn (seeder : Seeder) (gs : Vector Generator n) (i : Nat) :
    seeder.spawn.2.nth (gs.push seeder.spawn.1) i = seeder.nth gs i := by
  unfold nth
  rcases Nat.lt_trichotomy i n with hlt | rfl | hgt
  · rw [dif_pos hlt, dif_pos (Nat.lt_succ_of_lt hlt), Vector.getElem_push_lt hlt]
  · rw [dif_pos (Nat.lt_succ_self _), dif_neg (Nat.lt_irrefl _), Nat.sub_self, drop_zero,
      Vector.getElem_push_eq]
  · have hsub : i - n = i - (n + 1) + 1 := by omega
    rw [dif_neg (by omega), dif_neg (by omega), hsub, drop_succ]

/-- A drawing changes the generator that it draws from, and no other. -/
theorem nth_set (seeder : Seeder) (gs : Vector Generator n) (j : Fin n) (g : Generator) (i : Nat) :
    seeder.nth (gs.set j g j.isLt) i = if j.val = i then g else seeder.nth gs i := by
  unfold nth
  by_cases hi : i < n
  · rw [dif_pos hi, dif_pos hi, Vector.getElem_set]
  · rw [dif_neg hi, dif_neg hi, if_neg]
    have hj := j.isLt
    omega

theorem nth_of_mem (seeder : Seeder) (gs : Vector Generator n) (j : Fin n) :
    seeder.nth gs j = gs.get j := dif_pos j.isLt

end Seeder

/-! ### Schedules -/

namespace Schedule

theorem answersOf_cons (i j : Nat) (a : Answer β) (as : List (Nat × Answer β)) :
    answersOf i ((j, a) :: as) = if j = i then a :: answersOf i as else answersOf i as := by
  by_cases hj : j = i
  · simp [answersOf, hj]
  · simp [answersOf, hj]

/-- **In every schedule a generator answers as it would alone.** -/
theorem answersOf_run {n : Nat} (s : Schedule β n) (seeder : Seeder) (gs : Vector Generator n)
    (i : Nat) : answersOf i (s.run seeder gs) = (seeder.nth gs i).alone (s.drawings i) := by
  induction s generalizing seeder with
  | stop => rfl
  | spawn rest ih =>
    rw [drawings, ← seeder.nth_spawn]
    exact ih _ _
  | draw j drawing rest ih =>
    -- Afterwards only number `j` stands for another generator, one that is further in its stream.
    rcases hd : drawing.run (gs.get j) with ⟨answer, g⟩
    have hrun : (draw j drawing rest).run seeder gs =
        (j.val, answer) :: rest.run seeder (gs.set j g j.isLt) := by rw [run, hd]
    rw [hrun, answersOf_cons, ih, Seeder.nth_set, drawings]
    by_cases hj : j.val = i
    · subst hj
      rw [if_pos rfl, if_pos rfl, if_pos rfl, Generator.alone, Seeder.nth_of_mem, hd]
    · rw [if_neg hj, if_neg hj, if_neg hj]

theorem answersOf_answers (seed : UInt64) (i : Nat) (s : Schedule β 0) :
    answersOf i (s.answers seed) =
      (Generator.ofKey (Seeder.keyAt seed i)).alone (s.drawings i) := by
  rw [answers, answersOf_run, Seeder.nth, dif_neg (Nat.not_lt_zero i), Nat.sub_zero,
    Seeder.spawn_drop_ofSeed]

/-- **Spawned generators do not depend on the schedule.**  The words taken from the generator
number `i` are the first ones of the stream of a key that is determined by the seed and by `i`,
and it answers as a generator of this key that nobody else is there with.  If the same is drawn
from it in two schedules, then it gives the same answers. -/
theorem answers_independent (seed : UInt64) (i : Nat) (s : Schedule β 0) :
    (∃ k, wordsOf i (s.answers seed) =
      (List.range k).map (Generator.wordAt (Seeder.keyAt seed i))) ∧
    answersOf i (s.answers seed) =
      (Generator.ofKey (Seeder.keyAt seed i)).alone (s.drawings i) ∧
    ∀ s' : Schedule β 0, s'.drawings i = s.drawings i →
      answersOf i (s'.answers seed) = answersOf i (s.answers seed) := by
  obtain ⟨k, hk⟩ := (Generator.ofKey (Seeder.keyAt seed i)).words_alone (s.drawings i)
  refine ⟨⟨k, ?_⟩, answersOf_answers seed i s, fun s' h => ?_⟩
  · rw [wordsOf, answersOf_answers, hk, List.range_eq_range']
    rfl
  · rw [answersOf_answers, answersOf_answers, h]

/-- Takes a word from the second generator at once, and then two from the first. -/
def secondFirst : Schedule UInt32 0 :=
  spawn (spawn (draw 1 (.word .done) (draw 0 (.word .done) (draw 0 (.word .done) stop))))

/-- Takes a word from the first generator before the second is there, and hands out a third. -/
def secondLast : Schedule UInt32 0 :=
  spawn (draw 0 (.word .done) (spawn (spawn (draw 1 (.word .done) stop))))

/-- Two schedules as in `answers_independent`: the second generator gives the same. -/
theorem answers_independent_second :
    secondLast.drawings 1 = secondFirst.drawings 1 ∧
    answersOf 1 (secondLast.answers 42) = answersOf 1 (secondFirst.answers 42) :=
  ⟨rfl, (answers_independent 42 1 secondFirst).2.2 secondLast rfl⟩

end Schedule

/-! ### Dice -/

section

variable {α : Type} [Scalar α] {t : Table Source α} {dice : List (Die α)}

/-- Rolls dice one after the other, each where the one before it left the source. -/
def Table.rollInTurn (t : Table Source α) : List (Die α) → Source → List (Told α α)
  | [], _ => []
  | d :: ds, source =>
    let run := d.roll t source
    (run.outcome, run.events) :: t.rollInTurn ds run.state

/-- Each of the drawings is a roll of the die in its place. -/
def Table.Rolls (t : Table Source α) : List (Die α) → List (Drawing (Told α α)) → Prop :=
  List.Forall₂ fun d drawing => drawing.Makes (d.roll t)

/-- Whatever dice are rolled, there are drawings that do it. -/
theorem Table.IsDrawn.exists_rolls (ht : t.IsDrawn) (dice : List (Die α)) :
    ∃ drawings, t.Rolls dice drawings := by
  obtain ⟨drawing, hdrawing⟩ := Classical.axiomOfChoice (Die.roll_isDrawn ht)
  exact ⟨dice.map drawing, List.forall₂_map_right_iff.2 (List.forall₂_same.2 fun d _ => hdrawing d)⟩

/-- A generator that nobody else is there with answers with the rolls. -/
theorem Generator.alone_rolls {drawings : List (Drawing (Told α α))}
    (h : t.Rolls dice drawings) (g : Generator) :
    (g.alone drawings).map (·.result) = t.rollInTurn dice (.seeded g) := by
  induction h generalizing g with
  | nil => rfl
  | cons hd _ ih => rw [alone, List.map_cons, ih, Table.rollInTurn, hd g]

namespace Schedule

/-- **Dice rolled with spawned generators do not depend on the schedule.**  Rolls of dice are
drawings, and if dice are rolled with the generator number `i`, then their outcomes and events are
what they are if these dice are rolled one after the other with a generator of its key. -/
theorem rolls_independent (ht : t.IsDrawn) (seed : UInt64) (i : Nat) (dice : List (Die α)) :
    (∃ drawings, t.Rolls dice drawings) ∧
    ∀ s : Schedule (Told α α) 0, t.Rolls dice (s.drawings i) →
      (answersOf i (s.answers seed)).map (·.result) =
        t.rollInTurn dice (.seeded (.ofKey (Seeder.keyAt seed i))) := by
  refine ⟨ht.exists_rolls dice, fun s hs => ?_⟩
  rw [answersOf_answers, Generator.alone_rolls hs]

/-- Without custom dice there is nothing to ask of the table. -/
theorem plain_rolls_independent (seed : UInt64) (i : Nat) (dice : List (Die α)) :
    (∃ drawings, (Table.ofSource Source.nextInt).Rolls dice drawings) ∧
    ∀ s : Schedule (Told α α) 0, (Table.ofSource Source.nextInt).Rolls dice (s.drawings i) →
      (answersOf i (s.answers seed)).map (·.result) =
        (Table.ofSource Source.nextInt).rollInTurn dice
          (.seeded (.ofKey (Seeder.keyAt seed i))) :=
  rolls_independent Table.isDrawn_ofSource seed i dice

end Schedule
end
end DiceFormula
