/-
# Printing and parsing

The formula of a plain chain parses to the normal form of the chain
(`Chain.parse_text`).

The formula is made of the spellings of the pools, with the operator of each link in
front of its pool, in parentheses for an each operation (`Chain.Spells`).  So it is an
induction along the chain that the formula is accepted as the links of the chain
(`Chain.Spells.accepts`), with one more link at its end.
-/

import DiceFormula.Proofs.Expression.Joining
import DiceFormula.Proofs.Expression.Spelling
import DiceFormula.Proofs.Roll.Normal
import DiceFormula.Proofs.Roll.Replay

namespace DiceFormula

namespace Chain

/-- A chain in normal form and its formula. -/
inductive Spells : Chain ℚ → List Char → Prop where
  | head {p cs} (hp : p.Spells cs) : Spells (.head .plus p) cs
  | append {front op p cs ds} (hf : front.Spells cs) (hp : p.Spells ds) :
      Spells (.append front op p) (cs ++ op.linkText ds)

/-- **The formula of a plain chain spells its normal form.** -/
theorem IsPlain.exists_spells {c : Chain ℚ} (hc : c.IsPlain) :
    ∃ cs, c.normal.Spells cs ∧ ∀ rest, c.write rest = cs ++ rest := by
  induction hc with
  | head hp =>
    obtain ⟨cs, hcs, hwrite⟩ := hp.exists_spells
    exact ⟨cs, .head hcs, fun rest => by rw [write, hwrite]⟩
  | @append front op p hf hp ih =>
    obtain ⟨cs, hcs, hwrite⟩ := ih
    obtain ⟨ds, hds, hwrite'⟩ := hp.exists_spells
    refine ⟨cs ++ op.linkText ds, .append hcs hds, fun rest => ?_⟩
    rw [write, hwrite, hwrite', hwrite', Operation.linkText, List.append_assoc]
    split_ifs
    · simp
    · rfl

namespace Spells

/-- **The formula is accepted:** its nodes denote the pools of the chain. -/
theorem accepts {c : Chain ℚ} {cs : List Char} (h : c.Spells cs) : Accepts cs c.links := by
  induction h with
  | head hp => exact .of_node hp.nodeText hp.ofNode?_eq
  | @append front op p cs ds hf hp ih =>
    rw [links_append]
    exact ih.concat op hp.nodeText hp.ofNode?_eq

theorem first_operation {c : Chain ℚ} {cs : List Char} (h : c.Spells cs) :
    c.first.operation = .plus := by
  induction h with
  | head hp => rfl
  | append hf hp ih => exact ih

/-- **What spells a chain is parsed to that chain.** -/
theorem parse_eq {c : Chain ℚ} {cs : List Char} (h : c.Spells cs) :
    Chain.parse (String.ofList cs) = .ok c :=
  h.accepts.parse_eq (chainOf?_links h.first_operation)

end Spells

/-- **Printing and then parsing gives the normal form.**  The formula of a plain chain
parses to its normal form, which has the same formula.  If the fixed values are tenths,
then the parsed chain also has the same bounds, and at every table it makes the same
draws, ends in the same state and gives the same value or an error with the same
message. -/
theorem parse_text {c : Chain ℚ} (hc : c.IsPlain) :
    Chain.parse c.text = .ok c.normal ∧ c.normal.text = c.text ∧
      ((∀ l ∈ c.links, l.pool.InTenths) →
        (∀ b, c.normal.bounds b = c.bounds b) ∧
        ∀ (σ : Type) (t : Table σ ℚ) (s : σ),
          (c.normal.roll t s).draws = (c.roll t s).draws ∧
            (c.normal.roll t s).state = (c.roll t s).state ∧
            Run.SameOutcome RollError.SameMessage Eq
              (c.normal.roll t s).outcome (c.roll t s).outcome) := by
  refine ⟨?_, ?_, fun ht => ⟨hc.bounds_normal ht, fun σ t s => ?_⟩⟩
  · obtain ⟨cs, hcs, hwrite⟩ := hc.exists_spells
    rw [text, hwrite, List.append_nil]
    exact hcs.parse_eq
  · rw [text, text, write_normal]
  · obtain ⟨hdraws, hstate, houtcome⟩ := hc.roll_normal_agrees ht t s
    exact ⟨hdraws, hstate, houtcome⟩

/-- The hypotheses of `parse_text` are satisfiable: the formula of a chain with a count of
two and a half parses to the chain with a count of two, which rolls the same. -/
theorem parse_text_half_counts :
    let dice : Pool ℚ := .counted (.fixed (5 / 2)) (.uniform (.d 6 (by decide)))
    let more : Pool ℚ := .counted (.uniform (.d 4 (by decide))) (.uniform (.d 8 (by decide)))
    let c : Chain ℚ := ((Chain.ofPool dice).append .minus (.single (.fixed (-1 / 2)))).append
      .eachPlus more
    c.IsPlain ∧ (∀ l ∈ c.links, l.pool.InTenths) ∧ c.text = "2d6--0.5(+d4d8)" ∧
      Chain.parse "2d6--0.5(+d4d8)" = .ok c.normal ∧ c.normal.bounds noCustom = c.bounds noCustom ∧
      ∀ s, (c.normal.roll Replay.table s).draws = (c.roll Replay.table s).draws := by
  intro dice more c
  have hdice : dice.IsPlain := .counted (.fixed _) (if_neg (by decide +kernel))
  have hmore : more.IsPlain := .counted (.uniform _) (if_neg (by decide +kernel))
  have hc : c.IsPlain := .append (.append (.head hdice) (.fixed _)) hmore
  have ht : ∀ l ∈ c.links, l.pool.InTenths := by
    have hlinks : c.links =
        [⟨.plus, dice⟩, ⟨.minus, .single (.fixed (-1 / 2))⟩, ⟨.eachPlus, more⟩] := rfl
    have hhalf : (Pool.single (.fixed (-1 / 2 : ℚ))).InTenths := by
      rintro x ⟨⟩
      exact ⟨-5, by norm_num⟩
    rw [hlinks]
    simp only [List.forall_mem_cons]
    exact ⟨by rintro _ ⟨⟩, hhalf, by rintro _ ⟨⟩, by rintro _ ⟨⟩⟩
  have htext : c.text = "2d6--0.5(+d4d8)" := by decide +kernel
  obtain ⟨hparse, -, hsame⟩ := parse_text hc
  obtain ⟨hbounds, hroll⟩ := hsame ht
  exact ⟨hc, ht, htext, htext ▸ hparse, hbounds noCustom, fun s => (hroll _ Replay.table s).1⟩

end Chain
end DiceFormula
