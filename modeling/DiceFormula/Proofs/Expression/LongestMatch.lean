/-
# Tokens are longest matches

At the front of a text several texts may stand that a form of tokens allows, whatever their
numbers are: `12.5` begins with `1`, `12`, `12.` and itself.  A token is what the longest of them
stands for.  There is none if none is allowed, or if the longest has a number that does not fit
into 64 bits (`Token.next?_eq_some_iff_longest`).

The readers take off a front, and never give back a part of it.  That they take the longest is
since a reader that is set on a text with an allowed front goes on at least to the end of this front
(`Token.Formed.suffix_of_next?`).

So a node is read by the tokens into which its text is cut by longest matches, with blanks in
front of them, if there are one or two (`Token.shape?_eq_some_iff_cut`).
-/

import DiceFormula.Proofs.Expression.Lexeme

namespace DiceFormula
namespace Token

/-- A text that a form of tokens allows, whatever its numbers are. -/
inductive Formed : List Char → Prop where
  | number (negative : Bool) {ds fs cs} (h : Numeral ds fs cs) : Formed (Exact.signed negative cs)
  | die {ds} (hds : ∀ c ∈ ds, c.isDigit = true) (hne : ds ≠ []) : Formed ('d' :: ds)
  | interval (a b : Bool) {ds es s₁ s₂ s₃ s₄} (hds : ∀ c ∈ ds, c.isDigit = true) (hdne : ds ≠ [])
      (hes : ∀ c ∈ es, c.isDigit = true) (hene : es ≠ []) (h₁ : InnerSpaces s₁)
      (h₂ : InnerSpaces s₂) (h₃ : InnerSpaces s₃) (h₄ : InnerSpaces s₄) :
      Formed ('[' :: (s₁ ++ Exact.signed a ds ++ s₂ ++
        ',' :: (s₃ ++ Exact.signed b es ++ s₄ ++ [']'])))

/-- The longest allowed text at the front of another, and what comes behind it. -/
structure LongestMatch (cs text rest : List Char) : Prop where
  formed : Formed text
  append_eq : text ++ rest = cs
  longest : ∀ text', Formed text' → text' <+: cs → text'.length ≤ text.length

/-- A text that is cut into tokens by longest matches, with blanks in front of them and behind. -/
inductive Cut : List Token → List Char → Prop where
  | nil {cs} (h : Spaces cs) : Cut [] cs
  | cons {t ts before cs text rest} (hbefore : Spaces before) (h : LongestMatch cs text rest)
      (ht : t.Lexeme text) (hts : Cut ts rest) : Cut (t :: ts) (before ++ cs)

/-- The tokens of a shape. -/
def Shape.tokens : Shape → List Token
  | one t => [t]
  | two t u => [t, u]

/-! ### Lexemes -/

namespace Lexeme

variable {t u : Token} {cs : List Char}

theorem formed (h : t.Lexeme cs) : Formed cs := by
  cases h with
  | number negative h => exact .number negative h
  | die hds hne => exact .die hds hne
  | interval hmin hmax h₁ h₂ h₃ h₄ =>
    obtain ⟨a, hds, hdne, -⟩ := hmin
    obtain ⟨b, hes, hene, -⟩ := hmax
    exact .interval a b hds hdne hes hene h₁ h₂ h₃ h₄

/-- A text is the lexeme of one token only. -/
theorem unique (h : t.Lexeme cs) (h' : u.Lexeme cs) : t = u := by
  have hnext := h.next?_append stops_nil
  rw [h'.next?_append stops_nil] at hnext
  exact (Prod.mk.inj (Option.some.inj hnext)).1.symm

end Lexeme

/-! ### A reader goes on to the end of every match -/

theorem digits_suffix (cs : List Char) : (digits cs).2 <:+ cs := by
  rw [digits_eq]
  exact List.dropWhile_suffix _

theorem exists_digits_append {ds : List Char} (hds : ∀ c ∈ ds, c.isDigit = true)
    (rest : List Char) : ∃ ds' rest', digits (ds ++ rest) = (ds ++ ds', rest') ∧
      rest' <:+ rest := by
  refine ⟨rest.takeWhile Char.isDigit, rest.dropWhile Char.isDigit, ?_, List.dropWhile_suffix _⟩
  rw [digits_eq, List.takeWhile_append_of_pos hds, List.dropWhile_append_of_pos hds]

/-- Digits are a number, with or without what comes behind a point. -/
theorem exists_unsignedNumber?_of_digits {cs ds tail : List Char} (h : digits cs = (ds, tail))
    (hne : ds ≠ []) (negative : Bool) :
    ∃ l rest, unsignedNumber? negative cs = some (l, rest) ∧ rest <:+ tail := by
  rw [unsignedNumber?, h]
  split
  · rename_i heq
    exact absurd (Prod.mk.inj heq).1 hne
  · rename_i heq
    exact absurd (Prod.mk.inj heq).1 hne
  · rename_i tail' _ heq
    obtain ⟨-, rfl⟩ := Prod.mk.inj heq
    exact ⟨_, _, rfl, (digits_suffix tail').trans (List.suffix_cons '.' tail')⟩
  · rename_i heq
    obtain ⟨-, rfl⟩ := Prod.mk.inj heq
    exact ⟨_, _, rfl, List.suffix_refl _⟩

/-- **A number that begins with a numeral is read,** and at least as far. -/
theorem Numeral.exists_unsignedNumber?_append {ds fs text : List Char} (h : Numeral ds fs text)
    (negative : Bool) (rest : List Char) :
    ∃ l rest', unsignedNumber? negative (text ++ rest) = some (l, rest') ∧ rest' <:+ rest := by
  cases h with
  | whole hds hne =>
    obtain ⟨ds', tail, hdigits, htail⟩ := exists_digits_append hds rest
    obtain ⟨l, rest', hnumber, hsuffix⟩ :=
      exists_unsignedNumber?_of_digits hdigits (by simp [hne]) negative
    exact ⟨l, rest', hnumber, hsuffix.trans htail⟩
  | pointed hds hfs hne =>
    have hwhole : digits (ds ++ '.' :: (fs ++ rest)) = (ds, '.' :: (fs ++ rest)) :=
      digits_append hds (noDigit_cons rfl)
    obtain ⟨fs', rest', hfraction, hsuffix⟩ := exists_digits_append hfs rest
    rw [List.append_assoc, List.cons_append, unsignedNumber?, hwhole]
    cases ds with
    | nil =>
      obtain ⟨f, tail, rfl⟩ := List.exists_cons_of_ne_nil (hne.resolve_left fun h => h rfl)
      simp only [hfraction]
      exact ⟨_, _, rfl, hsuffix⟩
    | cons d ds =>
      simp only [hfraction]
      exact ⟨_, _, rfl, hsuffix⟩

theorem exists_next?_number (negative : Bool) {ds fs text : List Char} (h : Numeral ds fs text)
    (rest : List Char) :
    ∃ t rest', next? (Exact.signed negative text ++ rest) = some (t, rest') ∧ rest' <:+ rest := by
  obtain ⟨l, rest', hnumber, hsuffix⟩ := h.exists_unsignedNumber?_append negative rest
  obtain ⟨c, tail, rfl, hc⟩ := h.exists_cons
  refine ⟨.number l, rest', ?_, hsuffix⟩
  rw [← signed_append, List.cons_append, next?_signed negative hc, ← List.cons_append, hnumber,
    Option.map_some]

/-- **What is read goes on to the end of every match** at the front. -/
theorem Formed.suffix_of_next? {t : Token} {text rest rest' : List Char} (h : Formed text)
    (hnext : next? (text ++ rest) = some (t, rest')) : rest' <:+ rest := by
  cases h with
  | number negative h =>
    obtain ⟨u, tail, hread, hsuffix⟩ := exists_next?_number negative h rest
    rw [hread] at hnext
    cases hnext
    exact hsuffix
  | @die ds hds hne =>
    change die? (ds ++ rest) = _ at hnext
    obtain ⟨ds', tail, hdigits, hsuffix⟩ := exists_digits_append hds rest
    obtain ⟨d, ds, rfl⟩ := List.exists_cons_of_ne_nil hne
    rw [die?, hdigits] at hnext
    simp only [List.cons_append, Option.bind_eq_bind, Option.bind_eq_some_iff, Option.pure_def,
      Option.some.injEq, Prod.mk.injEq] at hnext
    obtain ⟨n, -, -, rfl⟩ := hnext
    exact hsuffix
  | interval a b hds hdne hes hene h₁ h₂ h₃ h₄ =>
    have hinterval := interval?_append a b hds hdne hes hene h₁ h₂ h₃ h₄ rest
    replace hnext := hinterval.symm.trans hnext
    simp only [Option.bind_eq_some_iff, Option.map_eq_some_iff, Prod.mk.injEq] at hnext
    obtain ⟨min, -, max, -, -, rfl⟩ := hnext
    exact List.suffix_refl _

/-! ### Longest matches -/

/-- A longest match that is a lexeme is read. -/
theorem LongestMatch.exists_next? {t : Token} {cs text rest : List Char}
    (h : LongestMatch cs text rest) (ht : t.Lexeme text) :
    ∃ u rest', next? cs = some (u, rest') := by
  obtain ⟨-, rfl, hlongest⟩ := h
  cases ht with
  | number negative h =>
    obtain ⟨u, rest', hread, -⟩ := exists_next?_number negative h rest
    exact ⟨u, rest', hread⟩
  | @die ds n hds hne hfit =>
    have hstop : NoDigit rest := by
      cases rest with
      | nil => exact noDigit_nil
      | cons c rest =>
        refine noDigit_cons (Bool.eq_false_iff.2 fun hc => ?_)
        have hlonger : Formed ('d' :: (ds ++ [c])) :=
          .die (List.forall_mem_append.2 ⟨hds, List.forall_mem_singleton.2 hc⟩) (by simp)
        have hlength := hlongest _ hlonger ⟨rest, by simp⟩
        simp only [List.length_cons, List.length_append, List.length_nil] at hlength
        omega
    have hdie := die?_append hds hne hstop
    rw [hfit, Option.map_some] at hdie
    exact ⟨.die n, rest, hdie⟩
  | interval hmin hmax h₁ h₂ h₃ h₄ =>
    obtain ⟨a, hds, hdne, hmin⟩ := hmin
    obtain ⟨b, hes, hene, hmax⟩ := hmax
    have hinterval := interval?_append a b hds hdne hes hene h₁ h₂ h₃ h₄ rest
    rw [hmin, Option.bind_some, hmax, Option.map_some] at hinterval
    exact ⟨_, rest, hinterval⟩

/-- **A token is what the longest match at the front stands for.** -/
theorem next?_eq_some_iff_longest {t : Token} {cs rest : List Char} :
    next? cs = some (t, rest) ↔ ∃ text, LongestMatch cs text rest ∧ t.Lexeme text := by
  constructor
  · intro h
    obtain ⟨text, htext, rfl⟩ := exists_lexeme_of_next? h
    refine ⟨text, ⟨htext.formed, rfl, ?_⟩, htext⟩
    rintro text' hformed ⟨rest', heq⟩
    rw [← heq] at h
    have hsuffix := (hformed.suffix_of_next? h).length_le
    have hlength := congrArg List.length heq
    rw [List.length_append, List.length_append] at hlength
    omega
  · rintro ⟨text, h, htext⟩
    obtain ⟨u, rest', hnext⟩ := h.exists_next? htext
    obtain ⟨-, rfl, hlongest⟩ := h
    obtain ⟨text', htext', heq⟩ := exists_lexeme_of_next? hnext
    have hlength : text'.length = text.length := by
      have hle := hlongest text' htext'.formed ⟨rest', heq.symm⟩
      have hsuffix := (htext.formed.suffix_of_next? hnext).length_le
      have hsum := congrArg List.length heq
      rw [List.length_append, List.length_append] at hsum
      omega
    obtain ⟨rfl, rfl⟩ := List.append_inj heq hlength.symm
    rw [hnext, htext.unique htext']

/-- Where a text is cut its first token is read behind the blanks. -/
theorem Cut.exists_next? {t : Token} {ts : List Token} {cs : List Char} (h : Cut (t :: ts) cs) :
    ∃ rest, next? (skip cs) = some (t, rest) ∧ Cut ts rest := by
  cases h with
  | cons hbefore h ht hts =>
    have hnext := next?_eq_some_iff_longest.2 ⟨_, h, ht⟩
    obtain ⟨-, rfl, -⟩ := h
    refine ⟨_, ?_, hts⟩
    rw [← List.append_assoc, ht.skip_append hbefore]
    exact hnext

/-- What is read behind blanks is cut off. -/
theorem Cut.of_next? {t : Token} {ts : List Token} {cs rest : List Char}
    (h : next? (skip cs) = some (t, rest)) (hts : Cut ts rest) : Cut (t :: ts) cs := by
  obtain ⟨text, hmatch, ht⟩ := next?_eq_some_iff_longest.1 h
  obtain ⟨before, hbefore, hcs⟩ := exists_skip cs
  rw [hcs]
  exact .cons hbefore hmatch ht hts

theorem cut_nil_iff {cs : List Char} : Cut [] cs ↔ skip cs = [] := by
  constructor
  · rintro ⟨h⟩
    exact List.dropWhile_eq_nil_iff.2 h
  · intro h
    exact .nil (isSpace_of_skip_eq_nil h)

/-- **A node is read by the tokens into which its text is cut,** if there are one or two. -/
theorem shape?_eq_some_iff_cut {s : Shape} {cs : List Char} :
    shape? cs = some s ↔ Cut s.tokens cs := by
  constructor
  · intro h
    rw [shape?] at h
    simp only [Option.bind_eq_bind, Option.bind_eq_some_iff, Prod.exists] at h
    obtain ⟨t, rest, hfirst, h⟩ := h
    split at h
    · rename_i hrest
      cases h
      exact .of_next? hfirst (cut_nil_iff.2 hrest)
    · simp only [Option.bind_eq_some_iff, Prod.exists] at h
      obtain ⟨u, rest', hsecond, h⟩ := h
      split at h
      · rename_i hrest'
        cases h
        exact .of_next? hfirst (.of_next? hsecond (cut_nil_iff.2 hrest'))
      · cases h
  · intro h
    cases s with
    | one t =>
      obtain ⟨rest, hfirst, hend⟩ := h.exists_next?
      rw [shape?, hfirst]
      simp only [Option.bind_eq_bind, Option.bind_some, cut_nil_iff.1 hend]
      rfl
    | two t u =>
      obtain ⟨rest, hfirst, hrest⟩ := h.exists_next?
      obtain ⟨rest', hsecond, hend⟩ := hrest.exists_next?
      rw [shape?, hfirst]
      simp only [Option.bind_eq_bind, Option.bind_some]
      cases hskip : skip rest with
      | nil =>
        rw [hskip] at hsecond
        cases hsecond
      | cons c tail =>
        rw [hskip] at hsecond
        simp only [hsecond, Option.bind_some, cut_nil_iff.1 hend]
        rfl

end Token
end DiceFormula
