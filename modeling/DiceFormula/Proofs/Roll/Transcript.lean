/-
# A transcript is a record of the roll

Rolling a chain step by step is rolling it: `Chain.rollSteps` makes the draws that
`Chain.roll` makes, ends in the same state, fails when that fails and with the same
error, and joins its steps to the same total (`Chain.rollSteps_agrees_roll`).  This
holds in any arithmetic, since both add the same rolls in the same order.

The two go different ways.  `roll` joins the sum of a pool to the total as soon as the
pool is rolled; `rollSteps` lists the rolls of all pools first.  For a pool the sum
that one carries along is the sum of the rolls that the other has listed so far, and
their number is the count.  For a chain the recipe in the middle is to list the
steps of the links that are left and then to join them to what is in front, which is
what an induction over the links compares.
-/

import DiceFormula.Proofs.Roll.Agreement
import DiceFormula.Roll.Step
import Mathlib.Tactic.SplitIfs

namespace DiceFormula

variable {σ α β γ : Type}

theorem RollM.fold_listed (f : γ → RollM σ α β) (cs : List γ) (bs : List β) :
    fold (fun bs c => do return (← f c) :: bs) cs bs =
      (do return (← fold (fun bs c => do return (← f c) :: bs) cs []) ++ bs) := by
  induction cs generalizing bs with
  | nil => simp
  | cons c cs ih =>
    simp only [fold_cons, bind_assoc, pure_bind]
    refine bind_congr fun b => ?_
    rw [ih (b :: bs), ih [b], bind_assoc]
    simp

/-- The first result is listed in front of the others. -/
theorem RollM.collectMap_cons (f : γ → RollM σ α β) (c : γ) (cs : List γ) :
    collectMap f (c :: cs) = (do
      let b ← f c
      let bs ← collectMap f cs
      return b :: bs) := by
  simp only [collectMap, fold_cons, bind_assoc, pure_bind]
  refine bind_congr fun b => ?_
  rw [fold_listed f cs [b], bind_assoc]
  simp

variable [Scalar α]

/-- A pool never rolls fewer dice than one. -/
theorem Pool.rollCount_pos (t : Table σ α) (p : Pool α) : (p.rollCount t).Gives (1 ≤ ·) := by
  cases p with
  | single value => exact RollM.gives_pure (Nat.le_refl 1)
  | counted count value =>
    have hx : (count.roll t).Gives fun _ => True := fun _ _ _ => trivial
    refine hx.bind fun x _ => ?_
    split
    · rename_i n hn
      refine RollM.gives_pure ?_
      simp only [Pool.countOf] at hn
      split_ifs at hn with h₁ h₂
      rw [← Except.ok.inj hn]
      exact Scalar.one_le_toCount _
    · exact RollM.gives_fail _ _

/-- The rolls of a die, listed or added up. -/
theorem RollM.collect_agrees_total (x : RollM σ α α) (n : Nat) :
    Agree Eq (fun xs sum => sum = Scalar.sum xs ∧ xs.length = n) (collect n x) (total n x) := by
  let Listed (k : Nat) (xs : List α) (sum : α) : Prop := sum = Scalar.sum xs.reverse ∧ xs.length = k
  have step : ∀ k xs sum, Listed k xs sum → Agree Eq (Listed (k + 1))
      (do return (← x) :: xs) (do return sum + (← x)) := by
    rintro k xs sum ⟨rfl, rfl⟩
    refine (Agree.self (fun _ => rfl) x).bind ?_
    rintro a _ rfl
    refine .pure ⟨?_, rfl⟩
    rw [List.reverse_cons, Scalar.sum, Scalar.sum, List.foldl_append]
    rfl
  have start : Listed 0 [] Scalar.neutral := ⟨rfl, rfl⟩
  have loops := Agree.times step n 0 _ _ start
  rw [Nat.zero_add] at loops
  have := loops.bind (f := fun xs => pure xs.reverse) (g := pure)
    (S := fun xs sum => sum = Scalar.sum xs ∧ xs.length = n)
    fun xs sum h => .pure ⟨h.1, by rw [List.length_reverse]; exact h.2⟩
  rwa [bind_pure] at this

/-- The rolls of a pool, kept apart or added up. -/
theorem Pool.rollSeparately_agrees_rollCounted (t : Table σ α) (p : Pool α) :
    RollM.Agree Eq (fun rolls r => r = (Scalar.sum rolls.list, rolls.list.length))
      (p.rollSeparately t) (p.rollCounted t) := by
  rw [Pool.rollCounted_eq]
  refine (RollM.Agree.refl (fun _ => rfl) (p.rollCount_pos t)).bind ?_
  rintro n _ ⟨rfl, hn⟩
  refine (RollM.collect_agrees_total _ n).bind ?_
  rintro rolls _ ⟨rfl, rfl⟩
  refine .note_bind (.bind_note ?_)
  cases rolls with
  | nil => exact absurd hn (by simp)
  | cons a as => exact .pure rfl

/-- Steps that are a record of some links: one for each, in the same order, with the
operation of the link and the sum of its rolls. -/
structure Step.Records (steps : List (Step α)) (links : List (Link α)) : Prop where
  operations : steps.map Step.operation = links.map Link.operation
  total_eq : ∀ s ∈ steps, s.total = Scalar.sum s.rolls.list

namespace Step.Records

theorem nil : Records ([] : List (Step α)) [] := ⟨rfl, by simp⟩

theorem cons {steps : List (Step α)} {links : List (Link α)} (h : Records steps links)
    (l : Link α) (rolls : Rolls α) : Records (ofRolls l.operation rolls :: steps) (l :: links) :=
  ⟨by rw [List.map_cons, List.map_cons, h.operations]; rfl,
    List.forall_mem_cons.2 ⟨rfl, h.total_eq⟩⟩

end Step.Records

/-- The steps of some links, listed and then joined to what is in front, or joined one by
one. -/
theorem Link.rollSteps_agrees_fold (t : Table σ α) (ls : List (Link α)) (before : α × Nat) :
    RollM.Agree Eq
      (fun steps after => steps.foldl Step.join before = after ∧ Step.Records steps ls)
      (RollM.collectMap (Link.rollStep t) ls)
      (RollM.fold (fun before l => joinLink before (l.operation, l.pool.rollCounted t)) ls
        before) := by
  induction ls generalizing before with
  | nil => exact .pure ⟨rfl, .nil⟩
  | cons l ls ih =>
    rw [RollM.collectMap_cons, RollM.fold_cons]
    have first : RollM.Agree Eq
        (fun s after => s.join before = after ∧ ∃ rolls, s = .ofRolls l.operation rolls)
        (l.rollStep t) (joinLink before (l.operation, l.pool.rollCounted t)) := by
      refine (Pool.rollSeparately_agrees_rollCounted t l.pool).bind ?_
      rintro rolls _ rfl
      exact .bind_note (.pure ⟨rfl, rolls, rfl⟩)
    refine first.bind ?_
    rintro _ _ ⟨rfl, rolls, rfl⟩
    rw [← bind_pure (RollM.fold _ ls _)]
    refine (ih _).bind ?_
    rintro steps after ⟨rfl, h⟩
    exact .pure ⟨rfl, h.cons l rolls⟩

/-- The two ways of rolling a chain agree. -/
theorem Chain.rollSteps_agrees_roll (t : Table σ α) (c : Chain α) :
    RollM.Agree Eq
      (fun transcript x => transcript.total = x ∧ Step.Records transcript.steps c.links)
      (c.rollSteps t) (c.roll t) := by
  rw [Chain.roll, joinLinks, RollM.fold_map]
  refine (Link.rollSteps_agrees_fold t c.links (Scalar.ofInt 0, 1)).bind ?_
  rintro steps _ ⟨rfl, h⟩
  exact .pure ⟨rfl, h⟩

/-- **Rolling step by step is rolling.**  From the same state, a chain that is rolled step
by step makes the same draws as one that is just rolled, ends in the same state, and has
the same total or the same error.  If it succeeds there is one step for each link, head
first, with the operation of that link, with at least one roll, and with the sum of its
rolls as total. -/
theorem Chain.rollSteps_eq_roll (t : Table σ α) (c : Chain α) (s : σ) :
    (c.rollSteps t s).draws = (c.roll t s).draws ∧
      (c.rollSteps t s).state = (c.roll t s).state ∧
      (c.rollSteps t s).outcome.map Transcript.total = (c.roll t s).outcome ∧
      ∀ transcript, (c.rollSteps t s).outcome = .ok transcript →
        transcript.steps.map Step.operation = c.links.map Link.operation ∧
          ∀ step ∈ transcript.steps,
            step.rolls.list ≠ [] ∧ step.total = Scalar.sum step.rolls.list := by
  obtain ⟨hd, hs, ho⟩ := c.rollSteps_agrees_roll t s
  refine ⟨hd, hs, ho.map_eq fun _ _ h => h.1, fun transcript hok => ?_⟩
  rw [hok] at ho
  obtain ⟨_, -, -, records⟩ := ho.exists_of_ok
  exact ⟨records.operations, fun step hstep => ⟨step.rolls.ne_nil, records.total_eq step hstep⟩⟩

end DiceFormula
