/-
# Accepted texts in double precision

In double precision an accepted text normalises just if ten times each of its values is finite
(`Chain.normalises_iff`).  The values are rounded to tenths by rounding ten times the value, and
for the largest doubles that is an infinity, which prints as `inf`.  The counts are not rounded
to tenths: what is printed is the shortest text of their integer part, which is always read back
(`Scalar.settlesCount_of_isFinite`).
-/

import DiceFormula.Proofs.Number.DoubleTenths
import DiceFormula.Proofs.Number.Shortest

namespace DiceFormula

/-- **A finite count settles.** -/
theorem Scalar.settlesCount_of_isFinite {x : Float} (hx : isFinite x = true)
    (hone : ¬ trunc x < ofInt 1) : SettlesCount x := by
  obtain ⟨a, u, hx⟩ := isFinite_iff.1 hx
  have hwhole := exact_trunc hx
  refine or_iff_not_imp_left.2 fun hmany => ?_
  obtain ⟨rfl, hpos⟩ := pos_of_not_le_one hwhole hmany
  obtain ⟨k, hk⟩ := Int.eq_ofNat_of_zero_le (by exact_mod_cast hpos.le)
  rw [hk, Int.cast_natCast] at hwhole hpos
  obtain ⟨n, htext, hn⟩ := exists_text_eq (Nat.cast_pos.1 hpos) hwhole
  -- The digits are read as the integer part itself.
  have hread : exact (ofDecimal ⟨false, n, 0⟩ : Float) = .finite false k := by
    have hdecimal := exact_ofDecimal false n 0
    rw [pow_zero, div_one, hn] at hdecimal
    exact hdecimal (isDouble_of_exact hwhole).2.2
  have hsame : (ofDecimal ⟨false, n, 0⟩ : Float) = trunc x := eq_of_exact_eq hread hwhole
  have htrunc : trunc (trunc x) = trunc x := by
    have h := exact_trunc hwhole
    rw [Int.floor_natCast, Int.cast_natCast] at h
    exact eq_of_exact_eq h hwhole
  refine ⟨n, htext, isFinite_iff.2 ⟨_, _, hread⟩, ?_, ?_, ?_⟩ <;> rw [hsame, htrunc]
  · exact hone
  · exact hmany

namespace Chain

/-- **An accepted text normalises just if ten times each of its values is finite.** -/
theorem normalises_iff {s : String} {c : Chain Float} (h : Chain.parse s = .ok c) :
    c.Normalises ↔ ∀ x ∈ c.values, Scalar.isFinite (x * Scalar.ofInt 10) = true := by
  obtain ⟨-, hnode⟩ := isNode_of_parse h
  have hfinite : ∀ x ∈ c.values, Scalar.isFinite x = true := by
    intro x hx
    obtain ⟨l, hl, hpool⟩ := mem_values_iff.1 hx
    have hl := hnode l hl
    rw [hpool] at hl
    cases hl with
    | fixed hx => exact hx
  constructor
  · intro hnormal x hx
    by_contra hlarge
    have hmem := Scalar.mem_shortText_of_large (hfinite x hx) hlarge
    exact not_normalises_of_mem h hx hmem rfl hnormal
  · intro hten
    refine normalises_of_settles h
      (fun x hx => Scalar.settles_of_isFinite (hfinite x hx) (hten x hx)) ?_
    intro l hl x value hpool
    have hl := hnode l hl
    rw [hpool] at hl
    cases hl with
    | times hx hone u => exact Scalar.settlesCount_of_isFinite hx hone

/-- The hypothesis of `normalises_iff` is satisfiable, with values that are rounded to tenths and
a count with a fraction. -/
theorem normalises_rounded :
    ∃ c : Chain Float, Chain.parse "2.5d6(-1.26) / -.04" = .ok c ∧ c.text = "2d6(-1.3)/0" ∧
      c.Normalises := by
  have hread : (Chain.parse (α := Float) "2.5d6(-1.26) / -.04").toOption.map
      (fun c => (c.text, c.values.all fun x => Scalar.isFinite (x * Scalar.ofInt 10))) =
        some ("2d6(-1.3)/0", true) := by
    decide +kernel
  obtain ⟨c, hc, hten⟩ := Option.map_eq_some_iff.1 hread
  rw [toOption_eq_some_iff] at hc
  rw [Prod.mk.injEq, List.all_eq_true] at hten
  exact ⟨c, hc, hten.1, (normalises_iff hc).2 hten.2⟩

/-- **The largest values do not normalise.**  The digit one and 308 zeros are read as a finite
value, which prints as `inf`, and that is not read back. -/
theorem not_normalises_large :
    ∃ c : Chain Float, Chain.parse (String.ofList ('1' :: List.replicate 308 '0')) = .ok c ∧
      c.text = "inf" ∧ ¬ c.Normalises := by
  have hdigits (k : ℕ) : '1' :: List.replicate k '0' =
      Exact.signed false (Digits.pointed 0 (1 * 10 ^ k)) :=
    Binary64.Shortest.ofNat_append_replicate Nat.one_pos k
  have hfinite : Scalar.isFinite (Scalar.ofDecimal ⟨false, 1 * 10 ^ 308, 0⟩ : Float) = true := by
    decide +kernel
  have htext : Scalar.shortText (Scalar.ofDecimal ⟨false, 1 * 10 ^ 308, 0⟩ : Float) =
      ['i', 'n', 'f'] := by
    decide +kernel
  have haccepts := Accepts.of_node (Expression.nodeText_number false 0 (1 * 10 ^ 308))
    (Pool.ofNode?_number hfinite)
  have hparse := haccepts.parse_eq (c := .head .plus _) rfl
  rw [hdigits]
  refine ⟨_, hparse, ?_, ?_⟩
  · rw [text, write, Pool.write, Die.write, htext]
    rfl
  · have hmem : 'i' ∈ Scalar.shortText (Scalar.ofDecimal ⟨false, 1 * 10 ^ 308, 0⟩ : Float) :=
      htext ▸ List.mem_cons_self
    exact not_normalises_of_mem hparse (List.mem_singleton_self _) hmem rfl

end Chain
end DiceFormula
