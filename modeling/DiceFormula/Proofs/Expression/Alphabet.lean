/-
# The characters of a node

Whatever is read as a node is spelled with few characters: those of numbers and dice,
brackets and what stands inside them, and blanks (`Token.isLegible`).  Behind the last token
there are only blanks, and the token itself ends with a digit, a point or a bracket
(`Token.isClosing_of_shape?_concat`), so an operator behind a node is never taken for a sign.

A reader takes legible characters off the front and leaves the rest (`Token.Takes`).  One
that reads a token takes at least one, and the last of them closes the token
(`Token.Reads`).
-/

import DiceFormula.Proofs.Expression.Cut
import DiceFormula.Proofs.Expression.Reading
import Mathlib.Data.List.Basic
import Mathlib.Data.List.TakeWhile

namespace DiceFormula
namespace Token

open Expression

/-- A character that a node can hold. -/
def isLegible (c : Char) : Bool :=
  isInert c || c == '-' || c == '[' || c == ',' || c == ']' || isSpace c

/-- From `cs` to `rest` there are legible characters only. -/
def Takes (cs rest : List Char) : Prop := ∃ ds, cs = ds ++ rest ∧ ∀ d ∈ ds, isLegible d = true

/-- From `cs` to `rest` there is a token: legible characters, of which the last is none that
makes a sign of an operator. -/
def Reads (cs rest : List Char) : Prop :=
  ∃ c, Takes cs (c :: rest) ∧ isLegible c = true ∧ isClosing c = true

theorem isLegible_of_isDigit {c : Char} (h : c.isDigit = true) : isLegible c = true := by
  simp [isLegible, isInert, h]

theorem isClosing_of_isDigit {c : Char} (h : c.isDigit = true) : isClosing c = true := by
  simp [isClosing, isInert, h]

theorem takes_refl (cs : List Char) : Takes cs cs := ⟨[], rfl, by simp⟩

theorem takes_cons {c : Char} (h : isLegible c = true) (cs : List Char) : Takes (c :: cs) cs :=
  ⟨[c], rfl, by simpa using h⟩

theorem Takes.trans {cs ds es : List Char} (h : Takes cs ds) (h' : Takes ds es) : Takes cs es := by
  obtain ⟨xs, rfl, hxs⟩ := h
  obtain ⟨ys, rfl, hys⟩ := h'
  refine ⟨xs ++ ys, by rw [List.append_assoc], fun d hd => ?_⟩
  exact (List.mem_append.1 hd).elim (hxs d) (hys d)

theorem Takes.reads {cs ds es : List Char} (h : Takes cs ds) (h' : Reads ds es) : Reads cs es := by
  obtain ⟨c, hc, hlegible, hclosing⟩ := h'
  exact ⟨c, h.trans hc, hlegible, hclosing⟩

theorem Reads.takes {cs rest : List Char} (h : Reads cs rest) : Takes cs rest := by
  obtain ⟨c, hc, hlegible, -⟩ := h
  exact hc.trans (takes_cons hlegible rest)

theorem takes_dropWhile {p : Char → Bool} (h : ∀ c, p c = true → isLegible c = true)
    (cs : List Char) : Takes cs (cs.dropWhile p) :=
  ⟨cs.takeWhile p, List.takeWhile_append_dropWhile.symm,
    fun d hd => h d (List.mem_takeWhile_imp hd)⟩

theorem digits_eq (cs : List Char) :
    digits cs = (cs.takeWhile Char.isDigit, cs.dropWhile Char.isDigit) :=
  List.span_eq_takeWhile_dropWhile ..

theorem takes_digits {cs ds rest : List Char} (h : digits cs = (ds, rest)) : Takes cs rest := by
  rw [digits_eq, Prod.mk.injEq] at h
  rw [← h.2]
  exact takes_dropWhile (fun _ => isLegible_of_isDigit) cs

/-- Digits that are split off end with a digit. -/
theorem reads_digits {cs ds rest : List Char} (h : digits cs = (ds, rest)) (hne : ds ≠ []) :
    Reads cs rest := by
  rw [digits_eq, Prod.mk.injEq] at h
  obtain ⟨hds, hrest⟩ := h
  have hdigit : ∀ c ∈ ds, c.isDigit = true := fun c hc => by
    rw [← hds] at hc
    exact List.mem_takeWhile_imp hc
  have hcs : cs = ds ++ rest := by
    rw [← hds, ← hrest, List.takeWhile_append_dropWhile]
  obtain ⟨es, c, rfl⟩ := (List.eq_nil_or_concat' ds).resolve_left hne
  have hc := hdigit c (by simp)
  refine ⟨c, ⟨es, by rw [hcs]; simp, fun d hd => ?_⟩, isLegible_of_isDigit hc,
    isClosing_of_isDigit hc⟩
  exact isLegible_of_isDigit (hdigit d (by simp [hd]))

theorem takes_sign {cs rest : List Char} {negative : Bool} (h : sign cs = (negative, rest)) :
    Takes cs rest := by
  unfold sign at h
  split at h <;> cases h
  · exact takes_cons (by decide) _
  · exact takes_refl _

theorem takes_skipInner (cs : List Char) : Takes cs (skipInner cs) := by
  refine takes_dropWhile (fun c hc => ?_) cs
  rw [isInnerSpace, Bool.or_eq_true, beq_iff_eq, beq_iff_eq] at hc
  rcases hc with rfl | rfl <;> decide

theorem takes_skip (cs : List Char) : Takes cs (skip cs) :=
  takes_dropWhile (fun c hc => by rw [isLegible, hc, Bool.or_true]) cs

theorem reads_unsignedNumber? {negative : Bool} {cs rest : List Char} {l : Decimal}
    (h : unsignedNumber? negative cs = some (l, rest)) : Reads cs rest := by
  rw [unsignedNumber?] at h
  split at h
  · rename_i tail hcs
    have hpoint : Takes cs tail := (takes_digits hcs).trans (takes_cons (by decide) tail)
    split at h
    · cases h
    · rename_i fraction tail' hne htail
      cases h
      exact hpoint.reads (reads_digits htail hne)
  · cases h
  · rename_i whole tail hne hcs
    have hpoint : Reads cs tail := ⟨'.', takes_digits hcs, by decide, by decide⟩
    rcases hfraction : digits tail with ⟨fraction, rest'⟩
    rw [hfraction] at h
    cases h
    by_cases hnil : fraction = []
    · -- A point may end a number.
      have happend := List.takeWhile_append_dropWhile (p := Char.isDigit) (l := tail)
      rw [digits_eq, Prod.mk.injEq] at hfraction
      rw [hfraction.1, hfraction.2, hnil, List.nil_append] at happend
      rwa [happend]
    · exact hpoint.takes.reads (reads_digits hfraction hnil)
  · rename_i whole tail hne hne' hcs
    cases h
    exact reads_digits hcs hne

theorem reads_number? {cs rest : List Char} {l : Decimal} (h : number? cs = some (l, rest)) :
    Reads cs rest := by
  rw [number?] at h
  have hsign : sign cs = ((sign cs).1, (sign cs).2) := rfl
  exact (takes_sign hsign).reads (reads_unsignedNumber? h)

theorem reads_integer? {cs rest : List Char} {n : Int} (h : integer? cs = some (n, rest)) :
    Reads cs rest := by
  rw [integer?] at h
  have hsign : sign cs = ((sign cs).1, (sign cs).2) := rfl
  simp only at h
  split at h
  · cases h
  · rename_i ds tail hne hds
    simp only [Option.bind_eq_bind, Option.bind_eq_some_iff, Option.pure_def, Option.some.injEq,
      Prod.mk.injEq] at h
    obtain ⟨_, -, -, rfl⟩ := h
    exact (takes_sign hsign).reads (reads_digits hds hne)

theorem reads_interval? {cs rest : List Char} {t : Token} (h : interval? cs = some (t, rest)) :
    Reads cs rest := by
  rw [interval?] at h
  simp only [Option.bind_eq_bind, Option.bind_eq_some_iff, Prod.exists] at h
  obtain ⟨min, cs₁, hmin, h⟩ := h
  split at h
  · rename_i cs₂ hcomma
    simp only [Option.bind_eq_some_iff, Prod.exists] at h
    obtain ⟨max, cs₃, hmax, h⟩ := h
    split at h
    · rename_i cs₄ hbracket
      cases h
      have h₁ := (takes_skipInner cs).trans (reads_integer? hmin).takes
      have h₂ := hcomma ▸ takes_skipInner cs₁
      have h₃ := (takes_skipInner cs₂).trans (reads_integer? hmax).takes
      have h₄ := hbracket ▸ takes_skipInner cs₃
      have hlast := (h₂.trans (takes_cons (by decide) cs₂)).trans (h₃.trans h₄)
      exact ⟨']', h₁.trans hlast, by decide, by decide⟩
    · cases h
  · cases h

theorem reads_die? {cs rest : List Char} {t : Token} (h : die? cs = some (t, rest)) :
    Reads cs rest := by
  rw [die?] at h
  split at h
  · cases h
  · rename_i ds tail hne hds
    simp only [Option.bind_eq_bind, Option.bind_eq_some_iff, Option.pure_def, Option.some.injEq,
      Prod.mk.injEq] at h
    obtain ⟨_, -, -, rfl⟩ := h
    exact reads_digits hds hne

theorem reads_next? {cs rest : List Char} {t : Token} (h : next? cs = some (t, rest)) :
    Reads cs rest := by
  unfold next? at h
  split at h
  · exact (takes_cons (by decide) _).reads (reads_die? h)
  · exact (takes_cons (by decide) _).reads (reads_interval? h)
  · obtain ⟨⟨l, rest⟩, hnumber, h⟩ := Option.map_eq_some_iff.1 h
    cases h
    exact reads_number? hnumber

theorem isSpace_of_skip_eq_nil {cs : List Char} (h : skip cs = []) : ∀ c ∈ cs, isSpace c = true :=
  List.dropWhile_eq_nil_iff.1 h

/-- **A node ends with a token, blanks aside.** -/
theorem exists_reads_of_shape? {cs : List Char} {s : Shape} (h : shape? cs = some s) :
    ∃ rest, Reads cs rest ∧ ∀ c ∈ rest, isSpace c = true := by
  rw [shape?] at h
  simp only [Option.bind_eq_bind, Option.bind_eq_some_iff, Prod.exists] at h
  obtain ⟨t, rest, hfirst, h⟩ := h
  have first := (takes_skip cs).reads (reads_next? hfirst)
  split at h
  · rename_i hrest
    exact ⟨rest, first, isSpace_of_skip_eq_nil hrest⟩
  · simp only [Option.bind_eq_some_iff, Prod.exists] at h
    obtain ⟨t', rest', hsecond, h⟩ := h
    split at h
    · rename_i hrest'
      exact ⟨rest', (first.takes.trans (takes_skip rest)).reads (reads_next? hsecond),
        isSpace_of_skip_eq_nil hrest'⟩
    · cases h

/-- **A node is legible.** -/
theorem isLegible_of_shape? {cs : List Char} {s : Shape} (h : shape? cs = some s) :
    ∀ c ∈ cs, isLegible c = true := by
  obtain ⟨rest, hreads, hrest⟩ := exists_reads_of_shape? h
  obtain ⟨ds, rfl, hds⟩ := hreads.takes
  intro c hc
  rcases List.mem_append.1 hc with hc | hc
  · exact hds c hc
  · rw [isLegible, hrest c hc, Bool.or_true]

/-- **A node that does not end with a blank ends with the end of a token.** -/
theorem isClosing_of_shape?_concat {cs : List Char} {c : Char} {s : Shape}
    (h : shape? (cs ++ [c]) = some s) (hc : isSpace c = false) : isClosing c = true := by
  obtain ⟨rest, ⟨d, ⟨ds, heq, -⟩, -, hd⟩, hrest⟩ := exists_reads_of_shape? h
  rcases List.eq_nil_or_concat' rest with rfl | ⟨rest, e, rfl⟩
  · obtain ⟨-, hlast⟩ := List.append_inj' heq rfl
    obtain rfl : c = d := List.singleton_inj.1 hlast
    exact hd
  · have hsplit : ds ++ d :: (rest ++ [e]) = (ds ++ d :: rest) ++ [e] := by simp
    obtain ⟨-, hlast⟩ := List.append_inj' (heq.trans hsplit) rfl
    obtain rfl : c = e := List.singleton_inj.1 hlast
    rw [hrest c (by simp)] at hc
    cases hc

end Token
end DiceFormula
