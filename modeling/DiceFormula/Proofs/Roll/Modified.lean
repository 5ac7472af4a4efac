/-
# Modified rolls add up to the modified total

An operation can be applied to a list of rolls (`HouseRule.modify`) or to their total
(`Operation.combine`, which is told how many rolls there were).  In exact arithmetic the two
agree for a fixed value (`HouseRule.modify_fixed`).

| operation | on a list | why the sums agree |
| --- | --- | --- |
| `+`, `-` | changes the first roll | the other rolls are left alone |
| `*`, `/`, each `+`, each `-` | changes every roll, as one roll | it distributes over sums |

An operation distributes over sums if joining an operand to two totals, each with its own number
of rolls, is joining it to their sum (`Operation.combine_add`).  Division does so too where the
divisor counts as zero, since both sides are then zero.
-/

import DiceFormula.Proofs.Die.Corner
import DiceFormula.Roll.HouseRule

namespace DiceFormula

variable {σ α β γ : Type}

/-- Results that need no run are listed at once. -/
theorem RollM.collectMap_pure (f : γ → β) (cs : List γ) :
    collectMap (fun c => (pure (f c) : RollM σ α β)) cs = pure (cs.map f) := by
  have hfold : ∀ bs, fold (fun bs c => do return (← (pure (f c) : RollM σ α β)) :: bs) cs bs =
      pure ((cs.map f).reverse ++ bs) := by
    induction cs with
    | nil =>
      intro bs
      rw [fold_nil]
      rfl
    | cons c cs ih =>
      intro bs
      rw [fold_cons, pure_bind, pure_bind, ih, List.map_cons, List.reverse_cons, List.append_assoc,
        List.singleton_append]
  rw [collectMap, hfold, pure_bind, List.append_nil, List.reverse_reverse]

namespace Operation

/-- An operation that a house rule applies to every roll. -/
def IsSpread (op : Operation) : Prop := op ≠ plus ∧ op ≠ minus

/-- **An operation that is applied to every roll distributes over sums,** those of values and
those of numbers of rolls. -/
theorem combine_add {op : Operation} (h : op.IsSpread) (x y v m n : ℚ) :
    op.combine (x + y) v (m + n) = op.combine x v m + op.combine y v n := by
  cases op with
  | plus => exact absurd rfl h.1
  | minus => exact absurd rfl h.2
  | multiply => exact add_mul x y v
  | divide =>
    by_cases hv : |v| < 1 / 10000
    · simp only [combine_divide_of_negligible _ _ (abs_lt.1 hv), add_zero]
    · simp only [combine_divide_of_le_abs _ _ (not_lt.1 hv), add_mul]
  | eachPlus => simp only [combine]; ring
  | eachMinus => simp only [combine]; ring

/-- No rolls stay nothing. -/
theorem combine_zero {op : Operation} (h : op.IsSpread) (v : ℚ) : op.combine 0 v 0 = 0 := by
  have hadd := combine_add h 0 0 v 0 0
  rw [add_zero] at hadd
  linarith

/-- **The modified rolls add up to the modified total.** -/
theorem sum_map_combine {op : Operation} (h : op.IsSpread) (v : ℚ) (rolls : List ℚ) :
    (rolls.map fun roll => op.combine roll v 1).sum = op.combine rolls.sum v rolls.length := by
  induction rolls with
  | nil => exact (combine_zero h v).symm
  | cons roll rolls ih =>
    rw [List.map_cons, List.sum_cons, List.sum_cons, ih, ← combine_add h, List.length_cons,
      Nat.cast_succ, add_comm (1 : ℚ)]

end Operation

namespace HouseRule

variable [Scalar α]

/-- An operation that is applied to every roll, with a fixed value. -/
theorem modify_pure {op : Operation} (h : op.IsSpread) (rolls : List α) (v : α) :
    modify rolls op (pure v : RollM σ α α) =
      pure (rolls.map fun roll => op.combine roll v (Scalar.ofInt 1)) := by
  have hmap := RollM.collectMap_pure (σ := σ) (α := α)
    (fun roll => op.combine roll v (Scalar.ofInt 1)) rolls
  cases op with
  | plus => exact absurd rfl h.1
  | minus => exact absurd rfl h.2
  | _ => exact hmap

/-- **Modifying rolls by a fixed value is modifying their total.**  It succeeds without a draw, and
the rolls that it gives add up to what the operation makes of the total and the number of the
rolls, also where the value counts as zero and divides into zero.  There are as many as before,
unless one is made up because there was none to change. -/
theorem modify_fixed (t : Table σ ℚ) (rolls : List ℚ) (op : Operation) (v : ℚ) (s : σ) :
    ∃ result, modify rolls op ((Die.fixed v).roll t) s = ⟨.ok result, s, []⟩ ∧
      result.sum = op.combine rolls.sum v rolls.length ∧
      result.length =
        if rolls = [] ∧ (op = .plus ∨ op = .minus) then 1 else rolls.length := by
  rw [Die.roll]
  by_cases hspread : op.IsSpread
  · refine ⟨_, congrFun (modify_pure hspread rolls v) s,
      Operation.sum_map_combine hspread v rolls, ?_⟩
    rw [List.length_map, if_neg fun h => h.2.elim hspread.1 hspread.2]
  · have hop : op = .plus ∨ op = .minus := by
      by_contra hne
      exact hspread (not_or.1 hne)
    cases rolls with
    | nil =>
      refine ⟨[op.combine 0 v 1], ?_, ?_, ?_⟩
      · rcases hop with rfl | rfl <;> rfl
      · rcases hop with rfl | rfl <;> simp [Operation.combine]
      · rw [if_pos ⟨rfl, hop⟩]
        rfl
    | cons first others =>
      refine ⟨op.combine first v 1 :: others, ?_, ?_, ?_⟩
      · rcases hop with rfl | rfl <;> rfl
      · rw [List.sum_cons, List.sum_cons]
        rcases hop with rfl | rfl <;> simp only [Operation.combine] <;> ring
      · rw [if_neg fun h => List.cons_ne_nil first others h.1]
        rfl

/-- Three rolls divided by a value that counts as zero. -/
example : (modify [3, 4, 5] .divide (pure (1 / 20000) : RollM Unit ℚ ℚ) ()).outcome.toOption =
    some [0, 0, 0] := by
  decide +kernel

end HouseRule
end DiceFormula
