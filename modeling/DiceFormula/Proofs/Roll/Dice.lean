/-
# Dice of a table and dice of a pool

A table rolls a number of dice with the same faces by itself (`Table.rollDice`), and so does a
pool with a fixed count.  The table adds integers up, one draw after the other.  The pool rolls
its count and checks it, then rolls a die that often, and adds up the numbers that the die shows.
From the same state both make the same draws, end in the same state and give the same number
(`Pool.roll_eq_rollDice`).

In between stands the sum of so many rolls of the die: after each of them the sum of the pool is
that of the table, as a fraction (`Table.rollDice_agrees_total`).  What the table does can be said
without a loop, too: it draws once for each die, and gives the sum (`Table.exists_rolls`).
-/

import DiceFormula.Proofs.Die.Checked
import DiceFormula.Proofs.Die.Enclosure
import DiceFormula.Proofs.Roll.Agreement

namespace DiceFormula

variable {σ : Type}

namespace Table

/-- Rolling dice on top of a sum. -/
theorem exists_rolls_onto {α : Type} (t : Table σ α) (faces : Int) (count : Nat) (sum : Int)
    (s : σ) :
    let run := RollM.times (fun sum => do return sum + (← t.rollDie faces)) count sum s
    ∃ rolls : List Int, rolls.length = count ∧
      run.draws = rolls.map (⟨1, max faces 1 + 1, ·⟩) ∧ run.outcome = .ok (sum + rolls.sum) := by
  induction count generalizing sum s with
  | zero => exact ⟨[], rfl, rfl, congrArg Except.ok (Int.add_zero sum).symm⟩
  | succ count ih =>
    obtain ⟨roll, s', hroll⟩ : ∃ roll s', t.nextInt 1 (max faces 1 + 1) s = (roll, s') :=
      ⟨_, _, rfl⟩
    have hdie : (do return sum + (← t.rollDie faces) : RollM σ α Int) s =
        ⟨.ok (sum + roll), s', [.draw ⟨1, max faces 1 + 1, roll⟩]⟩ := by
      simp only [rollDie, RollM.bind_apply, draw, hroll, RollM.pure_apply, Run.after_mk,
        List.nil_append]
    obtain ⟨rolls, rfl, hdraws, hsum⟩ := ih (sum + roll) s'
    refine ⟨roll :: rolls, rfl, ?_, ?_⟩
    · rw [RollM.times_succ, RollM.bind_apply, hdie]
      simp only [Run.draws_after, hdraws]
      rfl
    · rw [RollM.times_succ, RollM.bind_apply, hdie]
      simp only [Run.after, hsum, List.sum_cons, Int.add_assoc]

/-- **What a table rolls:** it draws once for each die, and gives the sum of its draws. -/
theorem exists_rolls {α : Type} (t : Table σ α) (faces : Int) (count : Nat) (s : σ) :
    ∃ rolls : List Int, rolls.length = count ∧
      (t.rollDice count faces s).draws = rolls.map (⟨1, max faces 1 + 1, ·⟩) ∧
      (t.rollDice count faces s).outcome = .ok rolls.sum := by
  obtain ⟨rolls, hlength, hdraws, hsum⟩ := t.exists_rolls_onto faces count 0 s
  rw [Int.zero_add] at hsum
  exact ⟨rolls, hlength, hdraws, hsum⟩

/-- What a table rolls is the sum of as many rolls of a die that begins with one. -/
theorem rollDice_agrees_total (t : Table σ ℚ) {u : Uniform} (hu : u.min = 1) (count : ℕ) :
    RollM.Agree Eq (fun (n : ℤ) (x : ℚ) => x = n) (t.rollDice count u.max)
      (RollM.total count ((Die.uniform u).roll t)) := by
  have hle := u.min_le_max
  have hdie : (t.rollDie u.max : RollM σ ℚ ℤ) = t.draw u.min (u.max + 1) := by
    rw [rollDie, max_eq_left (by omega), hu]
  have step : ∀ (_ : ℕ) (n : ℤ) (x : ℚ), x = n →
      RollM.Agree Eq (fun (n : ℤ) (x : ℚ) => x = n)
        (do return n + (← t.rollDie u.max)) (do return x + (← (Die.uniform u).roll t)) := by
    rintro - n _ rfl
    rw [Die.roll, hdie, bind_assoc]
    refine (RollM.Agree.self (fun _ => rfl) (t.draw u.min (u.max + 1))).bind ?_
    rintro m _ rfl
    exact .pure (Int.cast_add n m).symm
  have start : (Scalar.neutral : ℚ) = (0 : ℤ) := by rw [Scalar.neutral_rat, Int.cast_zero]
  exact RollM.Agree.times step count 0 _ _ start

end Table

namespace Pool

/-- A fixed count of as many dice as a pool may roll is that number. -/
theorem rollCount_ofInt (t : Table σ ℚ) {count : ℕ} (value : Die ℚ) (hone : 1 ≤ count)
    (hmax : count ≤ maxRolls) : (counted (.ofInt count) value).rollCount t = pure count := by
  have hcount : (counted (.ofInt count) value).countOf (Scalar.ofInt count) = .ok count := by
    rw [countOf_eq_ok_iff, Scalar.ofInt_rat, Scalar.trunc_intCast, Int.cast_natCast]
    exact ⟨Nat.one_le_cast.2 hone, Nat.cast_le.2 hmax, rfl⟩
  have hroll : (Die.ofInt (α := ℚ) count).roll t = pure (Scalar.ofInt count) := by
    rw [Die.ofInt, Die.roll]
  rw [rollCount, hroll, resolve, pure_bind, hcount]

/-- A fixed count is accepted if it is not below one. -/
theorem ofCount_ofInt (custom : CustomDie → Bounds ℚ) {count : ℕ} (value : Die ℚ)
    (hone : 1 ≤ count) :
    ofCount custom (.ofInt count) value = .ok (.counted (.ofInt count) value) := by
  rw [ofCount_eq_ok_iff, Die.ofInt, Die.bounds, Bounds.single, Scalar.ofInt_rat,
    Scalar.trunc_intCast, Scalar.ofInt_rat]
  exact ⟨not_lt.2 (by exact_mod_cast hone), rfl⟩

/-- A table and a pool roll the same dice. -/
theorem rollDice_agrees_roll {count : ℕ} (t : Table σ ℚ) {u : Uniform} (hu : u.min = 1)
    (hcount : 1 ≤ count ∧ count ≤ maxRolls) :
    RollM.Agree Eq (fun (n : ℤ) (x : ℚ) => x = n) (t.rollDice count u.max)
      ((counted (.ofInt count) (.uniform u)).roll t) := by
  rw [roll, rollCounted_eq, rollCount_ofInt t _ hcount.1 hcount.2, pure_bind, totalOf, bind_assoc,
    ← bind_pure (t.rollDice count u.max)]
  refine (t.rollDice_agrees_total hu count).bind ?_
  rintro n _ rfl
  rw [bind_assoc]
  refine .bind_note ?_
  rw [pure_bind]
  exact .pure rfl

/-- **A pool of dice rolls what the table rolls.**  For any number of faces that a die can have,
and any count up to the most dice that a pool may roll, the pool can be built.  From the same
state it makes the draws that the table makes for as many dice with these faces, which is one from
the faces for each of them, and ends in the same state; both succeed, and both give the sum of
the draws. -/
theorem roll_eq_rollDice {faces : ℤ} {count : ℕ} (hfaces : 1 ≤ faces ∧ faces < largestInt)
    (hcount : 1 ≤ count ∧ count ≤ maxRolls) (custom : CustomDie → Bounds ℚ) :
    ∃ (u : Uniform) (p : Pool ℚ),
      (Uniform.ofFaces faces : Except (ArgumentError ℚ) Uniform) = .ok u ∧
      ofCount custom (.ofInt count) (.uniform u) = .ok p ∧
      ∀ (σ : Type) (t : Table σ ℚ) (s : σ),
        (p.roll t s).draws = (t.rollDice count faces s).draws ∧
        (p.roll t s).state = (t.rollDice count faces s).state ∧
        ∃ rolls : List ℤ, rolls.length = count ∧
          (t.rollDice count faces s).draws = rolls.map (⟨1, faces + 1, ·⟩) ∧
          (t.rollDice count faces s).outcome = .ok rolls.sum ∧
          (p.roll t s).outcome = .ok (rolls.sum : ℚ) := by
  let u := Uniform.d faces hfaces
  refine ⟨u, .counted (.ofInt count) (.uniform u), Uniform.ofFaces_eq_ok_iff.2 ⟨rfl, rfl⟩,
    ofCount_ofInt custom _ hcount.1, ?_⟩
  intro σ t s
  obtain ⟨hdraws, hstate, houtcome⟩ := rollDice_agrees_roll t (u := u) rfl hcount s
  obtain ⟨rolls, hlength, hrolls, hsum⟩ := t.exists_rolls u.max count s
  rw [hsum] at houtcome
  obtain ⟨_, hroll, rfl⟩ := houtcome.exists_of_ok
  have hfaces : max u.max 1 = faces := max_eq_left hfaces.1
  rw [hfaces] at hrolls
  exact ⟨hdraws.symm, hstate.symm, rolls, hlength, hrolls, hsum, hroll⟩

/-- The hypotheses of `roll_eq_rollDice` are satisfiable: three six-sided dice that show two, five
and two. -/
theorem roll_eq_rollDice_three :
    let t : Table Source ℚ := .ofSource Source.nextInt
    let p : Pool ℚ := .counted (.ofInt 3) (.uniform (.d 6 (by decide)))
    (1 ≤ (6 : ℤ) ∧ (6 : ℤ) < largestInt) ∧ (1 ≤ 3 ∧ 3 ≤ maxRolls) ∧
      (t.rollDice 3 6 (.steps 2 3)).outcome.toOption = some 9 ∧
      (p.roll t (.steps 2 3)).draws = (t.rollDice 3 6 (.steps 2 3)).draws ∧
      (p.roll t (.steps 2 3)).outcome = .ok 9 := by
  intro t p
  have hdice : (t.rollDice 3 6 (.steps 2 3)).outcome.toOption = some 9 := by decide +kernel
  obtain ⟨u, q, hu, hq, h⟩ := @roll_eq_rollDice 6 3 (by decide) (by decide) noCustom
  obtain rfl : Uniform.d 6 (by decide) = u := Except.ok.inj hu
  obtain rfl : p = q := Except.ok.inj ((ofCount_ofInt noCustom _ (by decide)).symm.trans hq)
  obtain ⟨hdraws, -, rolls, -, -, hsum, hroll⟩ := h Source t (.steps 2 3)
  have hnine : (9 : ℤ) = rolls.sum :=
    Except.ok.inj ((toOption_eq_some_iff.1 hdice).symm.trans hsum)
  rw [← hnine] at hroll
  exact ⟨by decide, by decide, hdice, hdraws, hroll⟩

end Pool
end DiceFormula
