/-
# Segments and links

An expression that is accepted has a link for each of its segments, the first of which begins
with a plus (`Chain.denotes_of_parse`).  One that is cut into segments which denote links is
accepted, and has these links (`Chain.exists_parse_of_denotes`); and it is refused if some segment
is unknown, the ones in front of which denote links (`Chain.parse_eq_error_of_unknown`).
-/

import DiceFormula.Proofs.Expression.Division
import DiceFormula.Proofs.Expression.Interference

namespace DiceFormula

/-- What is related to a row with an entry in it has one in the same place. -/
theorem exists_of_forall₂_append_cons {β γ : Type} {R : β → γ → Prop} {bs bs' : List β} {b : β}
    {gs : List γ} (h : List.Forall₂ R (bs ++ b :: bs') gs) :
    ∃ hs g hs', gs = hs ++ g :: hs' ∧ List.Forall₂ R bs hs ∧ R b g ∧ List.Forall₂ R bs' hs' := by
  induction bs generalizing gs with
  | nil =>
    cases h with
    | cons hb hbs => exact ⟨[], _, _, rfl, .nil, hb, hbs⟩
  | cons b' bs ih =>
    cases h with
    | cons hb' hbs =>
      obtain ⟨hs, g, hs', rfl, h, hb, h'⟩ := ih hbs
      exact ⟨_ :: hs, g, hs', rfl, .cons hb' h, hb, h'⟩

namespace Chain

open Expression

variable {α : Type} [Scalar α]

/-- **What segments denote are the links of a chain.** -/
theorem exists_parse_of_denotes {s : String} {ss : List Segment} {ls : List (Link α)}
    (hsplit : split s.toList = .ok ss) (h : List.Forall₂ Segment.Denotes ss ls) :
    ∃ c : Chain α, parse s = .ok c ∧ c.links = ls := by
  obtain ⟨t, hhead, -, hplus⟩ := (split_isDivision hsplit).first
  cases h with
  | nil => cases hhead
  | @cons _ l ss ls hs hss =>
    cases hhead
    have hl : l = ⟨.plus, l.pool⟩ := by rw [← hplus, hs.1]
    refine ⟨(ofPool l.pool).extend ls, parse_eq_ok_iff.2 ⟨_, _, hsplit, .cons hs hss, rfl⟩, ?_⟩
    rw [links_extend, hl]
    rfl

/-- **The links of a chain are what the segments denote.** -/
theorem denotes_of_parse {s : String} {c : Chain α} (h : parse s = .ok c) :
    ∃ ss, split s.toList = .ok ss ∧ List.Forall₂ Segment.Denotes ss c.links := by
  obtain ⟨ss, ls, hsplit, hls, -⟩ := parse_eq_ok_iff.1 h
  obtain ⟨c', hc', rfl⟩ := exists_parse_of_denotes hsplit hls
  rw [h] at hc'
  cases hc'
  exact ⟨ss, hsplit, hls⟩

/-- **The first segment that is unknown is the error.** -/
theorem parse_eq_error_of_unknown {text : String} {front back : List Segment} {s : Segment}
    {ls : List (Link α)} (hsplit : split text.toList = .ok (front ++ s :: back))
    (hfront : List.Forall₂ Segment.Denotes front ls) (hvisible : s.node.all isBlank = false)
    (hs : (Pool.ofNode? (String.ofList s.node) : Option (Pool α)) = none) :
    (parse text : Except ParseError (Chain α)) = .error (s.error .unknownNode) := by
  have hunknown : ¬ ((Registry.builtin (α := α)).readNode? s.nodeText).isSome = true := by
    rw [Registry.builtin_readNode?, Segment.nodeText, hs]
    exact Bool.false_ne_true
  have hlink : (Registry.builtin (α := α)).readLink s = .error (s.error .unknownNode) :=
    Registry.readLink_of_unknown (by rw [hvisible]; exact Bool.false_ne_true) hunknown
  have hlinks : (front ++ s :: back).mapM (Registry.builtin (α := α)).readLink =
      .error (s.error .unknownNode) := by
    rw [List.mapM_append, Registry.mapM_readLink_eq_ok_iff.2 hfront, List.mapM_cons, hlink]
    rfl
  rw [parse, Registry.readChain, hsplit]
  simp only [bind, Except.bind, hlinks]

end Chain
end DiceFormula
