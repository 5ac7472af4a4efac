/-
# Normal forms roll alike

A plain chain whose fixed values are tenths rolls as its normal form does: the same
draws, the same end, and the same value or an error with the same message
(`Chain.roll_normal_agrees`).  The errors themselves differ, since they hold the pool
that could not be rolled; but their messages show it by its formula, which is that of
its normal form.
-/

import DiceFormula.Proofs.Die.Normal
import DiceFormula.Proofs.Roll.Agreement

namespace DiceFormula

variable {σ : Type}

/-- Errors that are put into the same words. -/
def RollError.SameMessage (e f : RollError ℚ) : Prop := e.message = f.message

theorem RollError.sameMessage_refl (e : RollError ℚ) : e.SameMessage e := rfl

namespace Pool

/-- Pools with the same formula make the same number of dice of counts with the same
integer part. -/
theorem countOf_same {p q : Pool ℚ} (htext : p.text = q.text) {x y : ℚ}
    (hxy : Scalar.trunc x = (Scalar.trunc y : ℚ)) :
    Run.SameOutcome RollError.SameMessage Eq (p.countOf x) (q.countOf y) := by
  simp only [countOf, hxy]
  split_ifs with h₁ h₂
  · refine .error ?_
    rw [RollError.SameMessage, RollError.message, RollError.message, htext]
  · exact .ok rfl
  · refine .error ?_
    rw [RollError.SameMessage, RollError.message, RollError.message, htext]

theorem resolve_agrees {p q : Pool ℚ} (htext : p.text = q.text) {x y : ℚ}
    (hxy : Scalar.trunc x = (Scalar.trunc y : ℚ)) :
    RollM.Agree (σ := σ) RollError.SameMessage Eq (p.resolve (pure x)) (q.resolve (pure y)) := by
  have hcount := countOf_same htext hxy
  rw [resolve, resolve, pure_bind, pure_bind]
  generalize p.countOf x = o at hcount ⊢
  generalize q.countOf y = o' at hcount ⊢
  cases hcount with
  | ok h => exact .pure h
  | error h => exact .fail h

/-- The sum of some rolls does not depend on the pool that it is noted for. -/
theorem totalOf_agrees (p q : Pool ℚ) (n : ℕ) (value : RollM σ ℚ ℚ) :
    RollM.Agree RollError.SameMessage Eq (p.totalOf n value) (q.totalOf n value) := by
  refine (RollM.Agree.self RollError.sameMessage_refl (RollM.total n value)).bind ?_
  rintro sum _ rfl
  exact .note_bind (.bind_note (.pure rfl))

/-- A pool in tenths rolls as its normal form does. -/
theorem rollCounted_normal_agrees (t : Table σ ℚ) {p : Pool ℚ} (hp : p.InTenths)
    (hc : ∀ n, p.count? = some (.fixed n) → 1 ≤ (Scalar.trunc n : ℚ)) :
    RollM.Agree RollError.SameMessage Eq (p.normal.rollCounted t) (p.rollCounted t) := by
  have htext : p.normal.text = p.text := by
    rw [text, text, write_normal]
  have htenths : p.value.tenths = p.value := Die.tenths_eq hp
  have self := RollM.Agree.self RollError.sameMessage_refl (p.rollCounted t)
  cases p with
  | single value => rwa [normal, show value.tenths = value from htenths]
  | counted count value =>
    have hvalue : value.tenths = value := htenths
    cases count with
    | fixed n =>
      rw [normal, hvalue] at htext ⊢
      split_ifs at htext ⊢ with h
      · -- One die is rolled, with a count or without one.
        have hone : (Scalar.trunc n : ℚ) = 1 := le_antisymm h (hc n rfl)
        have hcount : (counted (.fixed n) value).countOf n = .ok 1 := by
          rw [countOf_eq_ok_iff, hone, maxRolls]
          norm_num
        rw [rollCounted, rollCounted, Die.roll, resolve, pure_bind, hcount, pure_bind]
        exact totalOf_agrees _ _ _ _
      · rw [rollCounted, rollCounted, Die.roll, Die.roll]
        refine (resolve_agrees htext (Scalar.trunc_trunc n)).bind ?_
        rintro k _ rfl
        exact totalOf_agrees _ _ _ _
    | _ =>
      rw [normal, hvalue]
      · exact self
      · rintro _ ⟨⟩

end Pool

namespace Chain

/-- **A plain chain in tenths rolls as its normal form does.** -/
theorem IsPlain.roll_normal_agrees {c : Chain ℚ} (hc : c.IsPlain)
    (ht : ∀ l ∈ c.links, l.pool.InTenths) (t : Table σ ℚ) :
    RollM.Agree RollError.SameMessage Eq (c.normal.roll t) (c.roll t) := by
  rw [roll, roll, joinLinks, joinLinks, links_normal, List.map_map, RollM.fold_map, RollM.fold_map]
  refine (RollM.Agree.fold (R := Eq) ?_ _ _ rfl).bind ?_
  · rintro l hl before _ rfl
    refine (Pool.rollCounted_normal_agrees t (ht l hl) (hc.pools l hl).one_le_trunc).bind ?_
    rintro r _ rfl
    exact .note_bind (.bind_note (.pure rfl))
  · rintro r _ rfl
    exact .pure rfl

end Chain
end DiceFormula
