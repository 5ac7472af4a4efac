/-
# What tokens are spelled with

A token is read off the front of a text by a reader of its own.  Here the texts of a token are
said without a reader (`Token.Lexeme`), and the texts that are one or two tokens with spaces
between them (`Token.Shape.Spelled`).

| token | lexeme |
| --- | --- |
| number | a minus sign or none, and digits in front of a point or behind it |
| die | `d` and digits |
| interval | two integers with a comma between them, in brackets, with spaces and tabs inside |

What a reader takes off is a lexeme of the token that it gives, and a lexeme is taken off whole
if what follows it does not go on with a digit or a point.  A token that follows another in a
node is a die or an interval, which begins with neither.  So a text denotes a pool exactly if it
is spelled as a shape that denotes the pool (`Pool.ofNode?_eq_some_iff`).
-/

import DiceFormula.Proofs.Expression.Acceptance

namespace DiceFormula
namespace Token

/-- The text of a number without its sign: the digits in front of its point and those behind it,
of which there are some. -/
inductive Numeral : List Char → List Char → List Char → Prop where
  | whole {ds} (hds : ∀ c ∈ ds, c.isDigit = true) (hne : ds ≠ []) : Numeral ds [] ds
  | pointed {ds fs} (hds : ∀ c ∈ ds, c.isDigit = true) (hfs : ∀ c ∈ fs, c.isDigit = true)
      (hne : ds ≠ [] ∨ fs ≠ []) : Numeral ds fs (ds ++ '.' :: fs)

/-- The text of an integer that fits into 64 bits. -/
inductive Integer : Int → List Char → Prop where
  | signed (negative : Bool) {ds n} (hds : ∀ c ∈ ds, c.isDigit = true) (hne : ds ≠ [])
      (hfit : fit? (if negative then -(Digits.toNat ds : Int) else Digits.toNat ds) = some n) :
      Integer n (Exact.signed negative ds)

/-- Blanks inside of an interval. -/
def InnerSpaces (cs : List Char) : Prop := ∀ c ∈ cs, isInnerSpace c = true

/-- Blanks between tokens. -/
def Spaces (cs : List Char) : Prop := ∀ c ∈ cs, isSpace c = true

/-- The text of a token. -/
inductive Lexeme : Token → List Char → Prop where
  | number (negative : Bool) {ds fs cs} (h : Numeral ds fs cs) :
      Lexeme (.number (.ofParts negative ds fs)) (Exact.signed negative cs)
  | die {ds n} (hds : ∀ c ∈ ds, c.isDigit = true) (hne : ds ≠ [])
      (hfit : fit? (Digits.toNat ds) = some n) : Lexeme (.die n) ('d' :: ds)
  | interval {min max as bs s₁ s₂ s₃ s₄} (hmin : Integer min as) (hmax : Integer max bs)
      (h₁ : InnerSpaces s₁) (h₂ : InnerSpaces s₂) (h₃ : InnerSpaces s₃) (h₄ : InnerSpaces s₄) :
      Lexeme (.interval min max) ('[' :: (s₁ ++ as ++ s₂ ++ ',' :: (s₃ ++ bs ++ s₄ ++ [']'])))

/-- The text of one token, or of two in a row. -/
inductive Shape.Spelled : Shape → List Char → Prop where
  | one {t cs before after} (h : t.Lexeme cs) (hbefore : Spaces before) (hafter : Spaces after) :
      Spelled (.one t) (before ++ cs ++ after)
  | two {t u cs ds before between after} (h : t.Lexeme cs) (h' : u.Lexeme ds)
      (hbefore : Spaces before) (hbetween : Spaces between) (hafter : Spaces after) :
      Spelled (.two t u) (before ++ cs ++ between ++ ds ++ after)

/-! ### What a reader takes off is a lexeme -/

theorem digits_spec {cs ds rest : List Char} (h : digits cs = (ds, rest)) :
    cs = ds ++ rest ∧ ∀ c ∈ ds, c.isDigit = true := by
  rw [digits_eq, Prod.mk.injEq] at h
  obtain ⟨rfl, rfl⟩ := h
  exact ⟨List.takeWhile_append_dropWhile.symm, fun c hc => List.mem_takeWhile_imp hc⟩

theorem sign_spec {cs rest : List Char} {negative : Bool} (h : sign cs = (negative, rest)) :
    cs = Exact.signed negative rest := by
  unfold sign at h
  split at h <;> cases h <;> rfl

theorem signed_append (negative : Bool) (cs ds : List Char) :
    Exact.signed negative (cs ++ ds) = Exact.signed negative cs ++ ds := by
  cases negative <;> rfl

theorem exists_numeral_of_unsignedNumber? {negative : Bool} {cs rest : List Char} {l : Decimal}
    (h : unsignedNumber? negative cs = some (l, rest)) :
    ∃ ds fs text, Numeral ds fs text ∧ cs = text ++ rest ∧ l = .ofParts negative ds fs := by
  rw [unsignedNumber?] at h
  split at h
  · rename_i tail hcs
    obtain ⟨rfl, -⟩ := digits_spec hcs
    split at h
    · cases h
    · rename_i fs rest' hne htail
      cases h
      obtain ⟨rfl, hfs⟩ := digits_spec htail
      exact ⟨[], fs, _, .pointed (by simp) hfs (.inr hne), by simp, rfl⟩
  · cases h
  · rename_i ds tail hne hcs
    obtain ⟨rfl, hds⟩ := digits_spec hcs
    rcases hfraction : digits tail with ⟨fs, rest'⟩
    rw [hfraction] at h
    cases h
    obtain ⟨rfl, hfs⟩ := digits_spec hfraction
    exact ⟨ds, fs, _, .pointed hds hfs (.inl hne), by simp, rfl⟩
  · rename_i ds tail _ hne _ hcs
    cases h
    obtain ⟨rfl, hds⟩ := digits_spec hcs
    exact ⟨ds, [], _, .whole hds hne, rfl, rfl⟩

theorem exists_lexeme_of_number? {cs rest : List Char} {l : Decimal}
    (h : number? cs = some (l, rest)) :
    ∃ text, (Token.number l).Lexeme text ∧ cs = text ++ rest := by
  rcases hsign : sign cs with ⟨negative, tail⟩
  rw [number?, hsign] at h
  obtain ⟨ds, fs, text, htext, rfl, rfl⟩ := exists_numeral_of_unsignedNumber? h
  exact ⟨_, .number negative htext, by rw [sign_spec hsign, signed_append]⟩

theorem exists_integer_of_integer? {cs rest : List Char} {n : Int}
    (h : integer? cs = some (n, rest)) : ∃ text, Integer n text ∧ cs = text ++ rest := by
  rcases hsign : sign cs with ⟨negative, tail⟩
  rw [integer?, hsign] at h
  simp only at h
  split at h
  · cases h
  · rename_i ds tail' hne hds
    simp only [Option.bind_eq_bind, Option.bind_eq_some_iff, Option.pure_def, Option.some.injEq,
      Prod.mk.injEq] at h
    obtain ⟨m, hfit, rfl, rfl⟩ := h
    obtain ⟨rfl, hdigits⟩ := digits_spec hds
    exact ⟨_, .signed negative hdigits hne hfit, by rw [sign_spec hsign, signed_append]⟩

theorem exists_skipInner (cs : List Char) : ∃ s, InnerSpaces s ∧ cs = s ++ skipInner cs :=
  ⟨cs.takeWhile isInnerSpace, fun _ hc => List.mem_takeWhile_imp hc,
    List.takeWhile_append_dropWhile.symm⟩

theorem exists_skip (cs : List Char) : ∃ s, Spaces s ∧ cs = s ++ skip cs :=
  ⟨cs.takeWhile isSpace, fun _ hc => List.mem_takeWhile_imp hc,
    List.takeWhile_append_dropWhile.symm⟩

theorem exists_lexeme_of_interval? {cs rest : List Char} {t : Token}
    (h : interval? cs = some (t, rest)) : ∃ text, t.Lexeme ('[' :: text) ∧ cs = text ++ rest := by
  rw [interval?] at h
  simp only [Option.bind_eq_bind, Option.bind_eq_some_iff, Prod.exists] at h
  obtain ⟨min, cs₁, hmin, h⟩ := h
  split at h
  · rename_i cs₂ hcomma
    simp only [Option.bind_eq_some_iff, Prod.exists] at h
    obtain ⟨max, cs₃, hmax, h⟩ := h
    split at h
    · rename_i cs₄ hbracket
      cases h
      obtain ⟨as, has, hcs⟩ := exists_integer_of_integer? hmin
      obtain ⟨bs, hbs, hcs₂⟩ := exists_integer_of_integer? hmax
      obtain ⟨s₁, h₁, hs₁⟩ := exists_skipInner cs
      obtain ⟨s₂, h₂, hs₂⟩ := exists_skipInner cs₁
      obtain ⟨s₃, h₃, hs₃⟩ := exists_skipInner cs₂
      obtain ⟨s₄, h₄, hs₄⟩ := exists_skipInner cs₃
      refine ⟨_, .interval has hbs h₁ h₂ h₃ h₄, ?_⟩
      rw [hs₁, hcs, hs₂, hcomma, hs₃, hcs₂, hs₄, hbracket]
      simp only [List.append_assoc, List.cons_append, List.nil_append]
    · cases h
  · cases h

theorem exists_lexeme_of_die? {cs rest : List Char} {t : Token} (h : die? cs = some (t, rest)) :
    ∃ text, t.Lexeme ('d' :: text) ∧ cs = text ++ rest := by
  rw [die?] at h
  split at h
  · cases h
  · rename_i ds tail hne hds
    simp only [Option.bind_eq_bind, Option.bind_eq_some_iff, Option.pure_def, Option.some.injEq,
      Prod.mk.injEq] at h
    obtain ⟨n, hfit, rfl, rfl⟩ := h
    obtain ⟨rfl, hdigits⟩ := digits_spec hds
    exact ⟨ds, .die hdigits hne hfit, rfl⟩

/-- **What is taken off the front is a lexeme** of the token that is read. -/
theorem exists_lexeme_of_next? {cs rest : List Char} {t : Token} (h : next? cs = some (t, rest)) :
    ∃ text, t.Lexeme text ∧ cs = text ++ rest := by
  unfold next? at h
  split at h
  · obtain ⟨text, htext, rfl⟩ := exists_lexeme_of_die? h
    exact ⟨_, htext, rfl⟩
  · obtain ⟨text, htext, rfl⟩ := exists_lexeme_of_interval? h
    exact ⟨_, htext, rfl⟩
  · obtain ⟨⟨l, rest⟩, hnumber, h⟩ := Option.map_eq_some_iff.1 h
    cases h
    exact exists_lexeme_of_number? hnumber

/-- **What is read as one or two tokens is spelled as them.** -/
theorem spelled_of_shape? {cs : List Char} {s : Shape} (h : shape? cs = some s) : s.Spelled cs := by
  obtain ⟨before, hbefore, hcs⟩ := exists_skip cs
  rw [shape?] at h
  simp only [Option.bind_eq_bind, Option.bind_eq_some_iff, Prod.exists] at h
  obtain ⟨t, rest, hfirst, h⟩ := h
  obtain ⟨text, htext, hskip⟩ := exists_lexeme_of_next? hfirst
  obtain ⟨between, hbetween, hrest⟩ := exists_skip rest
  rw [hcs, hskip, ← List.append_assoc]
  split at h
  · cases h
    exact .one htext hbefore (isSpace_of_skip_eq_nil (by assumption))
  · simp only [Option.bind_eq_some_iff, Prod.exists] at h
    obtain ⟨u, rest', hsecond, h⟩ := h
    obtain ⟨text', htext', hskip'⟩ := exists_lexeme_of_next? hsecond
    split at h
    · rename_i hrest'
      cases h
      rw [hrest, hskip', ← List.append_assoc, ← List.append_assoc]
      exact .two htext htext' hbefore hbetween (isSpace_of_skip_eq_nil hrest')
    · cases h

/-! ### A lexeme is taken off whole -/

/-- A text that does not go on with a digit or a point. -/
structure Stops (rest : List Char) : Prop where
  digit : NoDigit rest
  point : rest.head? ≠ some '.'

theorem stops_nil : Stops [] := ⟨noDigit_nil, by rintro ⟨⟩⟩

theorem stops_cons {c : Char} (hc : c.isDigit = false) (hpoint : c ≠ '.') (cs : List Char) :
    Stops (c :: cs) :=
  ⟨noDigit_cons hc, fun h => hpoint (Option.some.inj h)⟩

theorem isDigit_of_isSpace {c : Char} (h : isSpace c = true) : c.isDigit = false := by
  cases hc : c.isDigit with
  | false => rfl
  | true =>
    rw [isSpace_of_isDigit hc] at h
    cases h

theorem Spaces.stops_append {cs : List Char} (h : Spaces cs) {rest : List Char} (hr : Stops rest) :
    Stops (cs ++ rest) := by
  cases cs with
  | nil => exact hr
  | cons c cs =>
    have hc := h c List.mem_cons_self
    refine stops_cons (isDigit_of_isSpace hc) ?_ (cs ++ rest)
    rintro rfl
    cases hc

theorem Spaces.stops {cs : List Char} (h : Spaces cs) : Stops cs := by
  have happend := h.stops_append stops_nil
  rwa [List.append_nil] at happend

/-- A sign is taken off what begins with none. -/
theorem sign_signed_of_head {cs : List Char} (h : cs.head? ≠ some '-') (negative : Bool) :
    sign (Exact.signed negative cs) = (negative, cs) := by
  cases negative with
  | true => rfl
  | false =>
    rw [Exact.signed, if_neg Bool.false_ne_true, sign]
    rintro tail rfl
    exact h rfl

namespace Numeral

variable {ds fs cs rest : List Char}

/-- A numeral begins with a digit or a point. -/
theorem exists_cons (h : Numeral ds fs cs) :
    ∃ c tail, cs = c :: tail ∧ (c.isDigit = true ∨ c = '.') := by
  cases h with
  | whole hds hne =>
    obtain ⟨c, tail, rfl⟩ := List.exists_cons_of_ne_nil hne
    exact ⟨c, tail, rfl, .inl (hds c List.mem_cons_self)⟩
  | pointed hds hfs hne =>
    cases ds with
    | nil => exact ⟨'.', fs, rfl, .inr rfl⟩
    | cons c tail => exact ⟨c, _, rfl, .inl (hds c List.mem_cons_self)⟩

theorem unsignedNumber?_append (h : Numeral ds fs cs) (negative : Bool) (hr : Stops rest) :
    unsignedNumber? negative (cs ++ rest) = some (.ofParts negative ds fs, rest) := by
  cases h with
  | whole hds hne =>
    rw [unsignedNumber?, digits_append hds hr.digit]
    split
    · rename_i heq
      exact absurd (Prod.mk.inj heq).1 hne
    · rename_i heq
      exact absurd (Prod.mk.inj heq).1 hne
    · rename_i heq
      obtain ⟨-, rfl⟩ := Prod.mk.inj heq
      exact absurd rfl hr.point
    · rename_i heq
      obtain ⟨rfl, rfl⟩ := Prod.mk.inj heq
      rfl
  | pointed hds hfs hne =>
    have hwhole : digits (ds ++ '.' :: (fs ++ rest)) = (ds, '.' :: (fs ++ rest)) :=
      digits_append hds (noDigit_cons rfl)
    rw [List.append_assoc, List.cons_append, unsignedNumber?, hwhole]
    cases ds with
    | nil =>
      have hfraction := digits_append hfs hr.digit
      cases fs with
      | nil => exact absurd rfl (hne.resolve_left fun h => h rfl)
      | cons f fs => simp only [hfraction]
    | cons d ds => simp only [digits_append hfs hr.digit]

end Numeral

/-- An integer is read whole if what follows it does not go on with a digit. -/
theorem integer?_append (negative : Bool) {ds rest : List Char} (hds : ∀ c ∈ ds, c.isDigit = true)
    (hne : ds ≠ []) (hr : NoDigit rest) : integer? (Exact.signed negative ds ++ rest) =
      (fit? (if negative then -(Digits.toNat ds : Int) else Digits.toNat ds)).map (·, rest) := by
  obtain ⟨d, tail, rfl⟩ := List.exists_cons_of_ne_nil hne
  rw [integer?, sign_signed negative ⟨d, tail, rfl, hds d List.mem_cons_self⟩]
  simp only [digits_append hds hr]
  cases fit? (if negative then -(Digits.toNat (d :: tail) : Int) else Digits.toNat (d :: tail)) <;>
    rfl

theorem skipInner_append {s cs : List Char} (h : InnerSpaces s)
    (hcs : ∀ c ∈ cs.head?, isInnerSpace c = false) : skipInner (s ++ cs) = cs := by
  rw [skipInner, List.dropWhile_append_of_pos h]
  cases cs with
  | nil => rfl
  | cons c cs => exact List.dropWhile_cons_of_neg (by rw [hcs c rfl]; exact Bool.false_ne_true)

theorem skip_append {s cs : List Char} (h : Spaces s) (hcs : ∀ c ∈ cs.head?, isSpace c = false) :
    skip (s ++ cs) = cs := by
  rw [skip, List.dropWhile_append_of_pos h]
  cases cs with
  | nil => rfl
  | cons c cs => exact List.dropWhile_cons_of_neg (by rw [hcs c rfl]; exact Bool.false_ne_true)

theorem isSpace_of_isInnerSpace {c : Char} (h : isInnerSpace c = true) : isSpace c = true := by
  rw [isInnerSpace, Bool.or_eq_true] at h
  rw [isSpace, Bool.or_eq_true, Bool.or_eq_true, Bool.or_eq_true]
  exact .inl (.inl h)

/-- Digits with a sign or none begin with no blank. -/
theorem exists_signed_eq_cons (negative : Bool) {ds : List Char}
    (hds : ∀ c ∈ ds, c.isDigit = true) (hne : ds ≠ []) :
    ∃ c tail, Exact.signed negative ds = c :: tail ∧ isSpace c = false := by
  obtain ⟨d, tail, rfl⟩ := List.exists_cons_of_ne_nil hne
  cases negative with
  | true => exact ⟨_, _, rfl, rfl⟩
  | false => exact ⟨d, tail, rfl, isSpace_of_isDigit (hds d List.mem_cons_self)⟩

/-- An integer begins with a digit or its sign. -/
theorem Integer.exists_cons {n : Int} {cs : List Char} (h : Integer n cs) :
    ∃ c tail, cs = c :: tail ∧ isSpace c = false := by
  obtain ⟨negative, hds, hne, -⟩ := h
  exact exists_signed_eq_cons negative hds hne

/-- Blanks in front of an integer are dropped. -/
theorem skipInner_signed (negative : Bool) {s ds : List Char} (hs : InnerSpaces s)
    (hds : ∀ c ∈ ds, c.isDigit = true) (hne : ds ≠ []) (rest : List Char) :
    skipInner (s ++ Exact.signed negative ds ++ rest) = Exact.signed negative ds ++ rest := by
  obtain ⟨c, tail, hcs, hc⟩ := exists_signed_eq_cons negative hds hne
  rw [hcs, List.append_assoc]
  refine skipInner_append hs ?_
  rintro _ ⟨⟩
  cases hinner : isInnerSpace c with
  | false => rfl
  | true =>
    rw [isSpace_of_isInnerSpace hinner] at hc
    cases hc

theorem InnerSpaces.noDigit_append {s : List Char} (h : InnerSpaces s) {c : Char}
    (hc : c.isDigit = false) (rest : List Char) : NoDigit (s ++ c :: rest) := by
  cases s with
  | nil => exact noDigit_cons hc
  | cons d s =>
    exact noDigit_cons (isDigit_of_isSpace (isSpace_of_isInnerSpace (h d List.mem_cons_self)))

/-- A number is read behind its sign, where it begins with a digit or a point. -/
theorem next?_signed (negative : Bool) {c : Char} (hc : c.isDigit = true ∨ c = '.')
    (cs : List Char) : next? (Exact.signed negative (c :: cs)) =
      (unsignedNumber? negative (c :: cs)).map fun read => (.number read.1, read.2) := by
  have hminus : (c :: cs).head? ≠ some '-' := by
    rintro ⟨⟩
    rcases hc with hc | hc <;> cases hc
  have hnumber :
      number? (Exact.signed negative (c :: cs)) = unsignedNumber? negative (c :: cs) := by
    rw [number?, sign_signed_of_head hminus]
  rw [← hnumber]
  cases negative with
  | true => rfl
  | false =>
    rw [Exact.signed, if_neg Bool.false_ne_true, next?]
    · rintro cs ⟨⟩
      rcases hc with hc | hc <;> cases hc
    · rintro cs ⟨⟩
      rcases hc with hc | hc <;> cases hc

/-- A die is read whole if what follows it does not go on with a digit. -/
theorem die?_append {ds rest : List Char} (hds : ∀ c ∈ ds, c.isDigit = true) (hne : ds ≠ [])
    (hr : NoDigit rest) :
    die? (ds ++ rest) = (fit? (Digits.toNat ds)).map fun n => (.die n, rest) := by
  obtain ⟨d, tail, rfl⟩ := List.exists_cons_of_ne_nil hne
  rw [die?, digits_append hds hr]
  cases h : fit? (Digits.toNat (d :: tail)) <;> simp only [h] <;> rfl

/-- An interval is read whole whatever follows it. -/
theorem interval?_append (a b : Bool) {ds es s₁ s₂ s₃ s₄ : List Char}
    (hds : ∀ c ∈ ds, c.isDigit = true) (hdne : ds ≠ []) (hes : ∀ c ∈ es, c.isDigit = true)
    (hene : es ≠ []) (h₁ : InnerSpaces s₁) (h₂ : InnerSpaces s₂) (h₃ : InnerSpaces s₃)
    (h₄ : InnerSpaces s₄) (rest : List Char) :
    interval? (s₁ ++ Exact.signed a ds ++ s₂ ++
        ',' :: (s₃ ++ Exact.signed b es ++ s₄ ++ [']']) ++ rest) =
      (fit? (if a then -(Digits.toNat ds : Int) else Digits.toNat ds)).bind fun min =>
        (fit? (if b then -(Digits.toNat es : Int) else Digits.toNat es)).map fun max =>
          (.interval min max, rest) := by
  have hcomma : skipInner (s₂ ++ ',' :: (s₃ ++ Exact.signed b es ++ (s₄ ++ ']' :: rest))) =
      ',' :: (s₃ ++ Exact.signed b es ++ (s₄ ++ ']' :: rest)) :=
    skipInner_append h₂ (by rintro _ ⟨⟩; rfl)
  have hbracket : skipInner (s₄ ++ ']' :: rest) = ']' :: rest :=
    skipInner_append h₄ (by rintro _ ⟨⟩; rfl)
  have hlow := integer?_append a hds hdne
    (h₂.noDigit_append (c := ',') rfl (s₃ ++ Exact.signed b es ++ (s₄ ++ ']' :: rest)))
  have hhigh := integer?_append b hes hene (h₄.noDigit_append (c := ']') rfl rest)
  have htext : s₁ ++ Exact.signed a ds ++ s₂ ++
        ',' :: (s₃ ++ Exact.signed b es ++ s₄ ++ [']']) ++ rest =
      s₁ ++ Exact.signed a ds ++
        (s₂ ++ ',' :: (s₃ ++ Exact.signed b es ++ (s₄ ++ ']' :: rest))) := by
    simp only [List.append_assoc, List.cons_append, List.nil_append]
  rw [htext, interval?, skipInner_signed a h₁ hds hdne, hlow]
  cases fit? (if a then -(Digits.toNat ds : Int) else Digits.toNat ds) with
  | none => rfl
  | some min =>
    simp only [Option.bind_eq_bind, Option.map_some, Option.bind_some, hcomma,
      skipInner_signed b h₃ hes hene, hhigh]
    cases fit? (if b then -(Digits.toNat es : Int) else Digits.toNat es) with
    | none => rfl
    | some max =>
      simp only [Option.map_some, Option.bind_some, hbracket]
      rfl

namespace Lexeme

variable {t : Token} {cs rest : List Char}

/-- **A lexeme is taken off whole** if what follows it does not go on with a digit or a point. -/
theorem next?_append (h : t.Lexeme cs) (hr : Stops rest) :
    next? (cs ++ rest) = some (t, rest) := by
  cases h with
  | number negative h =>
    obtain ⟨c, tail, rfl, hc⟩ := h.exists_cons
    rw [← signed_append, List.cons_append, next?_signed negative hc, ← List.cons_append,
      h.unsignedNumber?_append negative hr, Option.map_some]
  | die hds hne hfit =>
    have hdie := die?_append hds hne hr.digit
    rwa [hfit, Option.map_some] at hdie
  | interval hmin hmax h₁ h₂ h₃ h₄ =>
    obtain ⟨a, hds, hdne, hmin⟩ := hmin
    obtain ⟨b, hes, hene, hmax⟩ := hmax
    have hinterval := interval?_append a b hds hdne hes hene h₁ h₂ h₃ h₄ rest
    rwa [hmin, Option.bind_some, hmax, Option.map_some] at hinterval

/-- A lexeme begins with no blank. -/
theorem exists_cons (h : t.Lexeme cs) : ∃ c tail, cs = c :: tail ∧ isSpace c = false := by
  cases h with
  | number negative h =>
    obtain ⟨c, tail, rfl, hc⟩ := h.exists_cons
    cases negative with
    | true => exact ⟨_, _, rfl, rfl⟩
    | false =>
      refine ⟨c, tail, rfl, ?_⟩
      rcases hc with hc | rfl
      · exact isSpace_of_isDigit hc
      · rfl
  | die => exact ⟨_, _, rfl, rfl⟩
  | interval => exact ⟨_, _, rfl, rfl⟩

/-- A lexeme ends with no blank. -/
theorem exists_concat (h : t.Lexeme cs) : ∃ front c, cs = front ++ [c] ∧ isSpace c = false := by
  have hnext := h.next?_append stops_nil
  rw [List.append_nil] at hnext
  obtain ⟨c, ⟨front, hcs, -⟩, -, hc⟩ := reads_next? hnext
  refine ⟨front, c, hcs, ?_⟩
  by_contra hspace
  have hblank := isBlank_of_isSpace (Bool.not_eq_false _ ▸ hspace)
  rw [Expression.isBlank_of_isClosing hc] at hblank
  cases hblank

/-- A die or an interval goes on with neither a digit nor a point. -/
theorem stops_append (h : t.Lexeme cs) (ht : ∀ l, t ≠ .number l) (rest : List Char) :
    Stops (cs ++ rest) := by
  cases h with
  | number => exact absurd rfl (ht _)
  | die => exact stops_cons rfl (by decide) _
  | interval => exact stops_cons rfl (by decide) _

theorem skip_append (h : t.Lexeme cs) {before : List Char} (hbefore : Spaces before)
    (rest : List Char) : skip (before ++ cs ++ rest) = cs ++ rest := by
  obtain ⟨c, tail, rfl, hc⟩ := h.exists_cons
  rw [List.append_assoc]
  refine Token.skip_append hbefore ?_
  rintro _ ⟨⟩
  exact hc

end Lexeme

namespace Shape

/-- The second of two tokens is a die or an interval. -/
def Rolls : Shape → Prop
  | one _ => True
  | two _ u => ∀ l, u ≠ .number l

theorem rolls_of_pool? {α : Type} [Scalar α] {s : Shape} {p : Pool α} (h : s.pool? = some p) :
    s.Rolls := by
  cases s with
  | one t => trivial
  | two t u =>
    rintro l rfl
    cases h

/-- Two lexemes in a row are all of a text, or it is not read. -/
theorem shape?_of_lexemes {t u : Token} {cs ds before between : List Char} (h : t.Lexeme cs)
    (h' : u.Lexeme ds) (hbefore : Spaces before) (hbetween : Spaces between) (rest : List Char)
    (hstops : Stops (between ++ ds ++ rest)) (hrest : Stops rest) :
    shape? (before ++ cs ++ (between ++ ds ++ rest)) =
      if (skip rest).isEmpty then some (.two t u) else none := by
  obtain ⟨d, tail, hds, -⟩ := h'.exists_cons
  rw [shape?, h.skip_append hbefore, h.next?_append hstops]
  simp only [Option.bind_eq_bind, Option.bind_some, h'.skip_append hbetween]
  rw [hds, List.cons_append]
  simp only
  rw [← List.cons_append, ← hds, h'.next?_append hrest]
  simp only [Option.bind_some]
  cases skip rest <;> rfl

/-- **What is spelled as one or two tokens is read as them,** if the second is not a number. -/
theorem Spelled.shape?_eq {s : Shape} {cs : List Char} (h : s.Spelled cs) (hs : s.Rolls) :
    shape? cs = some s := by
  cases h with
  | one h hbefore hafter =>
    rename_i t cs before after
    have hend : skip after = [] := List.dropWhile_eq_nil_iff.2 hafter
    rw [shape?, h.skip_append hbefore, h.next?_append hafter.stops]
    simp only [Option.bind_eq_bind, Option.bind_some, hend]
    rfl
  | two h h' hbefore hbetween hafter =>
    rename_i t u cs ds before between after
    have hend : skip after = [] := List.dropWhile_eq_nil_iff.2 hafter
    have hstops : Stops (between ++ ds ++ after) := by
      rw [List.append_assoc]
      exact hbetween.stops_append (h'.stops_append hs after)
    have htext : before ++ cs ++ between ++ ds ++ after =
        before ++ cs ++ (between ++ ds ++ after) := by
      simp only [List.append_assoc]
    rw [htext, shape?_of_lexemes h h' hbefore hbetween _ hstops hafter.stops, hend]
    rfl

end Shape
end Token

/-- **A node denotes a pool exactly if it is spelled so:** as one token or two that denote it,
with spaces around them. -/
theorem Pool.ofNode?_eq_some_iff {α : Type} [Scalar α] {cs : List Char} {p : Pool α} :
    ofNode? (String.ofList cs) = some p ↔
      ∃ s : Token.Shape, s.Spelled cs ∧ s.pool? = some p := by
  constructor
  · intro h
    obtain ⟨s, hs, hp⟩ := exists_shape?_of_ofNode? h
    exact ⟨s, Token.spelled_of_shape? hs, hp⟩
  · rintro ⟨s, hs, hp⟩
    rw [ofNode?, String.toList_ofList, hs.shape?_eq (Token.Shape.rolls_of_pool? hp)]
    exact hp

end DiceFormula
