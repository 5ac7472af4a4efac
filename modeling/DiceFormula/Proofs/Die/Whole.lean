/-
# Whole rolls

`Die.isWhole` is a promise: a die for which it holds only rolls whole numbers, at
every table.  Sums of whole numbers are whole, so the promise passes from dice to
pools whatever their counts; and every operation but division keeps whole numbers
whole, so it passes from pools to chains.
-/

import DiceFormula.Proofs.Number.Rational
import DiceFormula.Proofs.Roll.Outcome

namespace DiceFormula

variable {σ : Type}

/-- A pool of a die with whole rolls has whole sums, whatever its count. -/
theorem Pool.rollCounted_whole_of_value {t : Table σ ℚ} {p : Pool ℚ}
    (h : (p.value.roll t).Gives (· ∈ wholeNumbers)) :
    (p.rollCounted t).Gives fun r => r.1 ∈ wholeNumbers := by
  have start : (Scalar.neutral : ℚ) ∈ wholeNumbers := by
    rw [Scalar.neutral_rat]
    exact zero_mem _
  have count : (p.rollCount t).Gives fun _ => True := fun _ _ _ => trivial
  rw [Pool.rollCounted_eq]
  exact count.bind fun n _ =>
    (Pool.totalOf_gives (I := fun _ sum => sum ∈ wholeNumbers) h start
      (fun _ _ _ hsum hx => add_mem hsum hx) n).mono fun _ hr => hr.1

theorem Operation.combine_mem_wholeNumbers {op : Operation} (h : op ≠ divide)
    {left right count : ℚ} (hl : left ∈ wholeNumbers) (hr : right ∈ wholeNumbers)
    (hc : count ∈ wholeNumbers) : op.combine left right count ∈ wholeNumbers := by
  cases op with
  | plus => exact add_mem hl hr
  | minus => exact sub_mem hl hr
  | multiply => exact mul_mem hl hr
  | divide => exact absurd rfl h
  | eachPlus => exact add_mem hl (mul_mem hc hr)
  | eachMinus => exact sub_mem hl (mul_mem hc hr)

/-- A chain of whole pools without division adds up to a whole number. -/
theorem Chain.roll_whole_of_links {t : Table σ ℚ} {c : Chain ℚ}
    (h : ∀ l ∈ c.links, l.operation ≠ .divide ∧
      (l.pool.rollCounted t).Gives fun r => r.1 ∈ wholeNumbers) :
    (c.roll t).Gives (· ∈ wholeNumbers) := by
  refine (Chain.roll_gives (g := fun _ _ => ()) (I := fun _ before => before.1 ∈ wholeNumbers) ?_
    (k := ()) (intCast_mem_wholeNumbers 0)).mono ?_
  · intro l hl _ before hbefore
    refine (h l hl).2.mono fun r hr => ?_
    exact Operation.combine_mem_wholeNumbers (h l hl).1 hbefore hr (intCast_mem_wholeNumbers _)
  · rintro x ⟨_, hx⟩
    exact hx

mutual

/-- **A die that promises whole rolls keeps its promise.** -/
theorem Die.roll_whole (t : Table σ ℚ) :
    ∀ d : Die ℚ, d.isWhole = true → (d.roll t).Gives (· ∈ wholeNumbers)
  | .fixed value, h => by
    rw [Die.isWhole, Scalar.isWhole_iff] at h
    rw [Die.roll]
    exact RollM.gives_pure h
  | .uniform u, _ => by
    rw [Die.roll]
    have draw : (t.draw (α := ℚ) u.min (u.max + 1)).Gives fun _ => True := fun _ _ _ => trivial
    exact draw.bind fun n _ => RollM.gives_pure (intCast_mem_wholeNumbers n)
  | .pool p, h => by
    rw [Die.isWhole] at h
    rw [Die.roll_pool]
    exact (Pool.rollCounted_whole t p h).bind fun r hr => RollM.gives_pure hr
  | .link c, h => by
    rw [Die.isWhole] at h
    rw [Die.roll_link]
    exact Chain.roll_whole_of_links (Chain.links_whole t c h)
  | .chain c, h => by
    rw [Die.isWhole] at h
    rw [Die.roll_chain]
    exact Chain.roll_whole_of_links (Chain.links_whole t c h)
  | .custom _, h => by rw [Die.isWhole] at h; cases h

@[inherit_doc Die.roll_whole]
theorem Pool.rollCounted_whole (t : Table σ ℚ) :
    ∀ p : Pool ℚ, p.isWhole = true → (p.rollCounted t).Gives fun r => r.1 ∈ wholeNumbers
  | .single value, h => by
    rw [Pool.isWhole] at h
    exact Pool.rollCounted_whole_of_value (Die.roll_whole t value h)
  | .counted count value, h => by
    rw [Pool.isWhole] at h
    exact Pool.rollCounted_whole_of_value (Die.roll_whole t value h)

@[inherit_doc Die.roll_whole]
theorem Chain.links_whole (t : Table σ ℚ) :
    ∀ c : Chain ℚ, c.isWhole = true → ∀ l ∈ c.links, l.operation ≠ .divide ∧
      (l.pool.rollCounted t).Gives fun r => r.1 ∈ wholeNumbers
  | .head op p, h, l, hl => by
    rw [Chain.links_head, List.mem_singleton] at hl
    subst hl
    rw [Chain.isWhole, Bool.and_eq_true, bne_iff_ne] at h
    exact ⟨h.1, Pool.rollCounted_whole t p h.2⟩
  | .append front op p, h, l, hl => by
    rw [Chain.links_append, List.mem_append, List.mem_singleton] at hl
    rw [Chain.isWhole, Bool.and_eq_true, Bool.and_eq_true, bne_iff_ne] at h
    rcases hl with hl | rfl
    · exact Chain.links_whole t front h.2 l hl
    · exact ⟨h.1.1, Pool.rollCounted_whole t p h.1.2⟩

end

end DiceFormula
