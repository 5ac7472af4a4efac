/-
# What a run draws

`x.Draws P` says that every draw that a run of the recipe `x` makes, from whatever state,
satisfies `P`.  This includes runs that fail: what was drawn in front of the error was drawn.

Nothing is said about results, so the property is compositional (`RollM.draws_compositional`), and
a die draws what its leaves draw.  A fixed value draws nothing, and an interval draws from its
half-open range.  This range is one that can be drawn from, because intervals are only built if it
is (`Uniform.exists_ofInterval_iff`), and so every draw of a die without custom dice is one for an
interval inside it (`draws_from_intervals`).
-/

import DiceFormula.Proofs.Die.Checked
import DiceFormula.Proofs.Roll.Agreement
import DiceFormula.Proofs.Roll.Compositional
import DiceFormula.Random.Source
import Mathlib.Data.Rat.Init

namespace DiceFormula

variable {σ α β γ : Type}

namespace RollM

variable {P : Draw → Prop}

/-- Every draw of a run of `x` satisfies `P`, whether the run succeeds or not. -/
def Draws (x : RollM σ α β) (P : Draw → Prop) : Prop := ∀ s, ∀ d ∈ (x s).draws, P d

theorem Draws.bind {x : RollM σ α β} {f : β → RollM σ α γ} (hx : x.Draws P)
    (hf : ∀ b, (f b).Draws P) : (x >>= f).Draws P := by
  intro s d hd
  have hfirst := hx s
  rw [bind_apply] at hd
  rcases hrun : x s with ⟨e | b, s', es⟩ <;> rw [hrun] at hd hfirst
  · exact hfirst d hd
  · rw [Run.draws_after, List.mem_append] at hd
    rcases hd with hd | hd
    · exact hfirst d hd
    · exact hf b s' d hd

/-- **What a recipe draws, its parts draw.** -/
theorem draws_compositional (P : Draw → Prop) :
    Compositional fun β (x : RollM σ α β) => x.Draws P where
  pure _ _ _ hd := absurd hd List.not_mem_nil
  fail _ _ _ hd := absurd hd List.not_mem_nil
  note _ _ _ hd := absurd hd List.not_mem_nil
  bind := Draws.bind

end RollM

theorem Table.draw_draws {P : Draw → Prop} (t : Table σ α) {low high : Int}
    (h : ∀ n, P ⟨low, high, n⟩) : (t.draw low high).Draws P := by
  intro s d hd
  rw [List.mem_singleton.1 hd]
  exact h _

variable [Scalar α]

/-- A draw for an interval among some leaves: from its half-open range, which is not empty and
whose ends fit into 64 bits. -/
def Draw.IsFor (leaves : List (Die α)) (d : Draw) : Prop :=
  ∃ u : Uniform, .uniform u ∈ leaves ∧ d.low = u.min ∧ d.high = u.max + 1 ∧
    smallestInt ≤ d.low ∧ d.low < d.high ∧ d.high ≤ largestInt

/-- Leaves without custom dice draw for the intervals among them. -/
theorem Table.leavesHave_isFor (t : Table σ α) {leaves : List (Die α)}
    (h : ∀ k, .custom k ∉ leaves) :
    t.LeavesHave (fun _ x => x.Draws (Draw.IsFor leaves)) leaves where
  uniform u hu := t.draw_draws fun _ =>
    ⟨u, hu, rfl, rfl, (Uniform.exists_ofInterval_iff (α := α)).1 ⟨u, u.ofInterval_eq⟩⟩
  custom k hk := absurd hk (h k)

/-- **Dice draw from the ranges of their intervals.**  Whatever a die without custom dice draws,
in whatever state its roll starts and also if it fails in the end, it draws from the half-open
range of an interval inside it, which is not empty and fits into 64 bits.  The same holds of
pools whose rolls are kept apart, and of chains that are rolled step by step. -/
theorem draws_from_intervals (t : Table σ α) :
    (∀ d : Die α, (∀ k, .custom k ∉ d.leaves) → (d.roll t).Draws (Draw.IsFor d.leaves)) ∧
      (∀ p : Pool α, (∀ k, .custom k ∉ p.leaves) →
        (p.roll t).Draws (Draw.IsFor p.leaves) ∧
          (p.rollSeparately t).Draws (Draw.IsFor p.leaves)) ∧
      ∀ c : Chain α, (∀ k, .custom k ∉ c.leaves) →
        (c.roll t).Draws (Draw.IsFor c.leaves) ∧
          (c.rollSteps t).Draws (Draw.IsFor c.leaves) := by
  have hQ (leaves : List (Die α)) :
      RollM.Compositional fun β (x : RollM σ α β) => x.Draws (Draw.IsFor leaves) :=
    RollM.draws_compositional _
  refine ⟨fun d hd => d.roll_of_leaves (hQ _) (t.leavesHave_isFor hd), fun p hp => ?_,
    fun c hc => ?_⟩
  · have hleaves := t.leavesHave_isFor hp
    exact ⟨p.roll_of_leaves (hQ _) hleaves, p.rollSeparately_of_leaves (hQ _) hleaves⟩
  · have hleaves := t.leavesHave_isFor hc
    exact ⟨c.roll_of_leaves (hQ _) hleaves, c.rollSteps_of_leaves (hQ _) hleaves⟩

/-- The hypotheses of `draws_from_intervals` are satisfiable, also by a run that fails: a negative
interval is drawn from, and then a count that is too large. -/
theorem draws_from_intervals_failing :
    let negative : Uniform := ⟨-3, -1, by decide, by decide, by decide⟩
    let many : Pool ℚ :=
      .counted (.uniform (.d 2000000 (by decide))) (.uniform (.d 6 (by decide)))
    let c : Chain ℚ := (Chain.ofDie (.uniform negative)).append .multiply many
    let run := c.roll (.ofSource Source.nextInt) (.steps 2000000 0)
    (∀ k, .custom k ∉ c.leaves) ∧ run.outcome.toOption = none ∧
      run.draws = [⟨-3, 0, -2⟩, ⟨1, 2000001, 2000000⟩] ∧ ∀ d ∈ run.draws, d.IsFor c.leaves := by
  intro negative many c run
  have hleaves : c.leaves = [.uniform negative, .uniform (.d 2000000 (by decide)),
      .uniform (.d 6 (by decide))] := rfl
  have hc : ∀ k, .custom k ∉ c.leaves := by
    rw [hleaves]
    simp
  exact ⟨hc, by decide +kernel, by decide +kernel,
    ((draws_from_intervals (.ofSource Source.nextInt)).2.2 c hc).1 (.steps 2000000 0)⟩

end DiceFormula
