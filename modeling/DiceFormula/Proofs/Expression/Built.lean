/-
# Built chains and their formulas

A chain reads back if its formula parses to a chain with the same bounds and the same formula.  The
builders make more chains than formulas can tell apart, since a formula has no grouping, and a pool
prints as its count and then its die with nothing between them:

| chain | formula | reads back as |
| --- | --- | --- |
| two times the value `3` | `23` | the value `23` |
| `d4` times the value `3` | `d43` | a die with forty-three faces |
| three times `2d6` | `32d6` | thirty-two dice |
| `2d6` times `d4` | `2d6d4` | nothing |
| `d6`, and `d4+1` for each | `d6(+d4+1)` | `d6(+d4)+1` |
| `d6`, minus `d4+1` | `d6-d4+1` | the difference, plus one |
| two times `d6+3` | `2d6+3` | the dice, plus three |

The first five are not legible.  A legible chain is read as its flat chain, and so it reads back
just if that has its bounds; and it does if everything inside may be regrouped
(`Chain.Legible.readsBack`).  So chains at the head of others, sums in sums, products in products,
counts of products, and single pools however wrapped, all read back.  A fixed value that is taken
twice is lost (`Chain.not_readsBack_two_threes`).
-/

import DiceFormula.Proofs.Die.Checked
import DiceFormula.Proofs.Expression.Flattening

namespace DiceFormula

/-- The formula parses to a chain with the same bounds and the same formula. -/
def Chain.ReadsBack (c : Chain ℚ) : Prop :=
  ∃ c', Chain.parse c.text = .ok c' ∧ c'.bounds noCustom = c.bounds noCustom ∧ c'.text = c.text

namespace Chain

/-- **A legible chain reads back if its flat chain has its bounds.**  If the fixed values inside are
tenths, then the formula parses to the flat chain, which prints the same.  So the chain reads back
just if both have the same bounds, and it does if everything inside may be regrouped. -/
theorem Legible.readsBack {c : Chain ℚ} (h : c.Legible)
    (ht : ∀ x, .fixed x ∈ c.leaves → Scalar.IsTenths x) :
    Chain.parse c.text = .ok c.flat ∧ c.flat.text = c.text ∧
      (c.ReadsBack ↔ c.flat.bounds noCustom = c.bounds noCustom) ∧ (c.Regroups → c.ReadsBack) := by
  have hparse : Chain.parse c.text = .ok c.flat := h.parse_flat ht
  have htext : c.flat.text = c.text := by rw [text, text, h.write_flat]
  have hreads : c.ReadsBack ↔ c.flat.bounds noCustom = c.bounds noCustom := by
    constructor
    · rintro ⟨c', hc', hbounds, -⟩
      rw [hparse] at hc'
      cases hc'
      exact hbounds
    · exact fun hbounds => ⟨c.flat, hparse, hbounds, htext⟩
  exact ⟨hparse, htext, hreads, fun hg => hreads.2 (h.range_flat hg).1.symm⟩

/-- The hypotheses of `Legible.readsBack` are satisfiable: a wrapped count of a product, at the
head of a chain, plus a difference, minus a wrapped pool. -/
theorem Legible.readsBack_nested :
    let d4 : Die ℚ := .uniform (.d 4 (by decide))
    let d6 : Die ℚ := .uniform (.d 6 (by decide))
    let d8 : Die ℚ := .uniform (.d 8 (by decide))
    let product : Chain ℚ := (ofDie d6).append .multiply (.single (.fixed 3))
    let first : Chain ℚ := .ofPool (.counted (.chain (ofDie d4)) (.chain product))
    let difference : Chain ℚ := (ofDie d8).append .minus (.single (.fixed (1 / 2)))
    let dice : Chain ℚ := .ofPool (.counted (.fixed (5 / 2)) d6)
    let c := ((ofDie (.chain first)).append .plus (.single (.chain difference))).append .minus
      (.single (.link dice))
    c.Legible ∧ c.Regroups ∧ c.text = "d4d6*3+d8-0.5-2d6" ∧
      Chain.parse "d4d6*3+d8-0.5-2d6" = .ok c.flat ∧ c.ReadsBack := by
  intro d4 d6 d8 product first difference dice c
  have hfour : (Pool.single d4).IsTally := le_refl (1 : ℤ)
  have htwo : (Pool.single (.fixed (Scalar.trunc (5 / 2 : ℚ)))).IsTally :=
    ⟨by decide +kernel, by decide +kernel⟩
  have hproduct : product.Legible := ⟨⟨rfl, trivial⟩, trivial, by rintro ⟨⟩⟩
  have hfirst : first.Legible := ⟨rfl, ⟨rfl, trivial⟩, hproduct, .inr ⟨rfl, hfour, trivial⟩⟩
  have hdifference : difference.Legible := ⟨⟨rfl, trivial⟩, trivial, by rintro ⟨⟩⟩
  have hdice : dice.Legible := ⟨rfl, trivial, trivial, .inr ⟨rfl, htwo, trivial⟩⟩
  have hc : c.Legible := ⟨⟨⟨rfl, hfirst⟩, hdifference, by rintro ⟨⟩⟩, hdice, by rintro ⟨⟩⟩
  have hgproduct : product.Regroups := ⟨trivial, trivial, by decide, by rintro ⟨⟩⟩
  have hgfirst : first.Regroups := ⟨trivial, hgproduct, .inr ⟨rfl, by decide⟩⟩
  have hgdifference : difference.Regroups := ⟨trivial, trivial, by decide, by rintro ⟨⟩⟩
  have hgdice : dice.Regroups := ⟨trivial, trivial, .inr ⟨rfl, by decide⟩⟩
  have hg : c.Regroups :=
    ⟨⟨hgfirst, hgdifference, by decide, by rintro ⟨⟩⟩, hgdice, by decide +kernel, by rintro ⟨⟩⟩
  have ht : ∀ x, .fixed x ∈ c.leaves → Scalar.IsTenths x := by
    simp only [c, first, difference, dice, product, d4, d6, d8, ofDie, ofPool, Chain.leaves,
      Pool.leaves, Die.leaves, List.cons_append, List.nil_append, List.mem_cons, List.not_mem_nil,
      Die.fixed.injEq, reduceCtorEq, false_or, or_false]
    rintro x (rfl | rfl | rfl)
    · exact ⟨30, by norm_num⟩
    · exact ⟨5, by norm_num⟩
    · exact ⟨25, by norm_num⟩
  have htext : c.text = "d4d6*3+d8-0.5-2d6" := by decide +kernel
  obtain ⟨hparse, -, -, hreads⟩ := hc.readsBack ht
  exact ⟨hc, hg, htext, htext ▸ hparse, hreads hg⟩

/-- **A fixed value that is taken twice does not read back.**  Two times the value three is
six, and prints as `23`. -/
theorem not_readsBack_two_threes :
    ∃ c : Chain ℚ, (DiceFormula.take (.ofInt 2)).fixed noCustom 3 = .ok c ∧ c.Checked ∧
      c.text = "23" ∧ ¬ c.ReadsBack := by
  have hcount : Pool.ofCount noCustom (.ofInt 2) (.fixed (3 : ℚ)) =
      .ok (.counted (.ofInt 2) (.fixed 3)) := if_neg (by decide +kernel)
  have hbuilt : (DiceFormula.take (.ofInt 2)).fixed noCustom (3 : ℚ) =
      .ok (.ofPool (.counted (.ofInt 2) (.fixed 3))) := by
    have hvalue : (Die.ofFixed 3 : Except (ArgumentError ℚ) (Die ℚ)) = .ok (.fixed 3) := rfl
    rw [PendingLink.fixed, hvalue]
    show (DiceFormula.take (.ofInt 2)).die noCustom (.fixed (3 : ℚ)) = _
    rw [PendingLink.die, DiceFormula.take, hcount]
    rfl
  refine ⟨_, hbuilt, .head .plus (.counted (.fixed rfl) (.fixed rfl) hcount), by decide +kernel, ?_⟩
  rintro ⟨c', hparse, hbounds, -⟩
  have hread : ((Chain.parse (α := ℚ) "23").toOption.map fun c => (c.bounds noCustom).high) =
      some 23 := by decide +kernel
  have hsix : ((ofPool (.counted (.ofInt 2) (.fixed (3 : ℚ)))).bounds noCustom).high = 6 := by
    decide +kernel
  have htext : (ofPool (.counted (.ofInt 2) (.fixed (3 : ℚ)))).text = "23" := by decide +kernel
  rw [htext] at hparse
  rw [hparse, Except.toOption, Option.map_some, hbounds, hsix, Option.some.injEq] at hread
  norm_num at hread

end Chain
end DiceFormula
