/-
# The grammar of nodes

The texts of nodes, said without tokens and readers, next to the pools that they denote.

| text | denotes |
| --- | --- |
| a minus sign or none, and digits in front of a point or behind it | the nearest value, if finite |
| `d` and digits | an interval from one |
| two integers with a comma between them, in brackets, with spaces and tabs inside | an interval |
| one of these | it, rolled once |
| one of these that is at least one, and a die or an interval | the second, that many times |

The digits of dice and intervals may be any number.  What limits them is that an interval
(`Uniform`) is not empty and that its half-open range fits into 64 bits.

A reading cuts a text into the parts of a node, with blanks around them.  The accepted texts are
exactly those with a reading that denotes a pool, and such a reading is the only one: a lexeme is
taken off whole, so two readings of a text begin with the same blanks and the same lexeme
(`Token.Lexeme.peel`), and so on behind it (`Pool.ofNode?_eq_some_iff_denotes`).
-/

import DiceFormula.Proofs.Die.Checked
import DiceFormula.Proofs.Expression.Lexeme
import DiceFormula.Proofs.Expression.Reading
import DiceFormula.Proofs.Number.Monotone
import DiceFormula.Proofs.Roll.Outcome

namespace DiceFormula

open Scalar Token

namespace Grammar

/-- The text of an integer. -/
inductive IntegerText : ℤ → List Char → Prop where
  | signed (negative : Bool) {ds} (hds : ∀ c ∈ ds, c.isDigit = true) (hne : ds ≠ []) :
      IntegerText (if negative then -(Digits.toNat ds : ℤ) else Digits.toNat ds)
        (Exact.signed negative ds)

/-- The text of an interval. -/
inductive UniformText (u : Uniform) : List Char → Prop where
  | faces {ds} (hds : ∀ c ∈ ds, c.isDigit = true) (hne : ds ≠ []) (hmin : u.min = 1)
      (hmax : u.max = Digits.toNat ds) : UniformText u ('d' :: ds)
  | ends {as bs s₁ s₂ s₃ s₄} (hmin : IntegerText u.min as) (hmax : IntegerText u.max bs)
      (h₁ : InnerSpaces s₁) (h₂ : InnerSpaces s₂) (h₃ : InnerSpaces s₃) (h₄ : InnerSpaces s₄) :
      UniformText u ('[' :: (s₁ ++ as ++ s₂ ++ ',' :: (s₃ ++ bs ++ s₄ ++ [']'])))

/-- The text of a die that stands alone or in a count. -/
inductive DieText : Die Float → List Char → Prop where
  | number (negative : Bool) {ds fs cs} (h : Numeral ds fs cs)
      (hfinite : isFinite (ofDecimal (.ofParts negative ds fs) : Float) = true) :
      DieText (.fixed (ofDecimal (.ofParts negative ds fs))) (Exact.signed negative cs)
  | uniform {u cs} (h : UniformText u cs) : DieText (.uniform u) cs

/-- The parts of a node: a count with the blanks behind it, or none, and a value, between
blanks. -/
structure Reading where
  before : List Char
  count : Option (List Char × List Char)
  value : List Char
  after : List Char
deriving DecidableEq

namespace Reading

/-- The text that is cut. -/
def text : Reading → List Char
  | ⟨before, none, value, after⟩ => before ++ value ++ after
  | ⟨before, some (count, between), value, after⟩ => before ++ count ++ between ++ value ++ after

/-- The pool that a reading denotes. -/
inductive Denotes : Reading → Pool Float → Prop where
  | once {d cs before after} (h : DieText d cs) (hbefore : Spaces before) (hafter : Spaces after) :
      Denotes ⟨before, none, cs, after⟩ (.single d)
  | times {c u cs ds before between after} (h : DieText c cs) (h' : UniformText u ds)
      (hone : ofInt 1 ≤ trunc (c.bounds noCustom).low) (hbefore : Spaces before)
      (hbetween : Spaces between) (hafter : Spaces after) :
      Denotes ⟨before, some (cs, between), ds, after⟩ (.counted c (.uniform u))

end Reading
end Grammar

/-! ### Lexemes of the grammar -/

theorem Token.fit?_eq_some_iff {n m : ℤ} :
    fit? n = some m ↔ n = m ∧ smallestInt ≤ n ∧ n ≤ largestInt := by
  rw [fit?, Option.ite_none_right_eq_some, Option.some.injEq]
  exact And.comm

namespace Uniform

/-- The ends of an interval fit into 64 bits. -/
theorem fits (u : Uniform) : (smallestInt ≤ u.min ∧ u.min ≤ largestInt) ∧
    smallestInt ≤ u.max ∧ u.max ≤ largestInt := by
  have horder := u.min_le_max
  have hmin := u.smallest_le_min
  have hmax := u.max_lt_largest
  omega

end Uniform

namespace Grammar

/-- An integer of a token is one that fits into 64 bits. -/
theorem integer_iff {n : ℤ} {cs : List Char} :
    Token.Integer n cs ↔ IntegerText n cs ∧ smallestInt ≤ n ∧ n ≤ largestInt := by
  constructor
  · rintro ⟨negative, hds, hne, hfit⟩
    obtain ⟨rfl, hfits⟩ := fit?_eq_some_iff.1 hfit
    exact ⟨.signed negative hds hne, hfits⟩
  · rintro ⟨⟨negative, hds, hne⟩, hfits⟩
    exact .signed negative hds hne (fit?_eq_some_iff.2 ⟨rfl, hfits⟩)

/-- **The text of an interval is a lexeme for it.** -/
theorem uniformText_iff {u : Uniform} {cs : List Char} :
    UniformText u cs ↔ ∃ t : Token, t.Lexeme cs ∧ t.toUniform? = some u := by
  constructor
  · rintro (⟨hds, hne, hmin, hmax⟩ | ⟨hmin, hmax, h₁, h₂, h₃, h₄⟩)
    · refine ⟨.die u.max, .die hds hne ?_, ?_⟩
      · exact fit?_eq_some_iff.2 ⟨hmax.symm, hmax ▸ u.fits.2⟩
      · exact toOption_eq_some_iff.2 (Uniform.ofFaces_eq_ok_iff.2 ⟨hmin, rfl⟩)
    · refine ⟨.interval u.min u.max, .interval ?_ ?_ h₁ h₂ h₃ h₄, ?_⟩
      · exact integer_iff.2 ⟨hmin, u.fits.1⟩
      · exact integer_iff.2 ⟨hmax, u.fits.2⟩
      · exact toOption_eq_some_iff.2 u.ofInterval_eq
  · rintro ⟨t, ht, hu⟩
    cases ht with
    | number => cases hu
    | die hds hne hfit =>
      obtain ⟨rfl, -⟩ := fit?_eq_some_iff.1 hfit
      obtain ⟨hmin, hmax⟩ := Uniform.ofFaces_eq_ok_iff.1 (toOption_eq_some_iff.1 hu)
      exact .faces hds hne hmin hmax
    | interval hmin hmax h₁ h₂ h₃ h₄ =>
      obtain ⟨rfl, rfl⟩ := Uniform.ofInterval_eq_ok_iff.1 (toOption_eq_some_iff.1 hu)
      exact .ends (integer_iff.1 hmin).1 (integer_iff.1 hmax).1 h₁ h₂ h₃ h₄

/-- **The text of a die is a lexeme for it.** -/
theorem dieText_iff {d : Die Float} {cs : List Char} :
    DieText d cs ↔ ∃ t : Token, t.Lexeme cs ∧ t.toDie? = some d := by
  constructor
  · rintro (⟨negative, h, hfinite⟩ | h)
    · refine ⟨_, .number negative h, ?_⟩
      rw [toDie?, Die.ofFixed, if_pos hfinite]
      rfl
    · obtain ⟨t, ht, hu⟩ := uniformText_iff.1 h
      refine ⟨t, ht, ?_⟩
      cases t with
      | number => cases hu
      | _ => exact congrArg (Option.map Die.uniform) hu
  · rintro ⟨t, ht, hd⟩
    cases t with
    | number =>
      cases ht with
      | number negative h =>
        rw [toDie?, toOption_eq_some_iff, Die.ofFixed] at hd
        split_ifs at hd with hfinite
        cases hd
        exact .number negative h hfinite
    | _ =>
      obtain ⟨u, hu, rfl⟩ := Option.map_eq_some_iff.1 hd
      exact .uniform (uniformText_iff.2 ⟨_, ht, hu⟩)

/-- A die of the grammar has a number for its least value, so that the check of a count says what
it asks for. -/
theorem DieText.not_lt_one_iff {d : Die Float} {cs : List Char} (h : DieText d cs) :
    ¬ trunc (d.bounds noCustom).low < ofInt 1 ↔ ofInt 1 ≤ trunc (d.bounds noCustom).low := by
  have hlow : (d.bounds noCustom).low ≤ (d.bounds noCustom).low := by
    cases h with
    | number negative h hfinite => exact le_self_of_isFinite hfinite
    | uniform h => exact ofInt_le_ofInt (le_refl _)
  rw [not_lt_iff (ofInt_le_ofInt (le_refl 1)), exact_trunc_eq_nan_iff]
  exact or_iff_left (le_self_iff_exact_ne_nan.1 hlow)

end Grammar

/-! ### Readings -/

/-- **Texts that begin with blanks and a lexeme begin with the same ones,** if neither lexeme goes
on with a digit or a point. -/
theorem Token.Lexeme.peel {t t' : Token} {before before' cs cs' rest rest' : List Char}
    (h : t.Lexeme cs) (h' : t'.Lexeme cs') (hbefore : Spaces before) (hbefore' : Spaces before')
    (hrest : Stops rest) (hrest' : Stops rest')
    (heq : before ++ cs ++ rest = before' ++ cs' ++ rest') :
    before = before' ∧ cs = cs' ∧ rest = rest' := by
  have hskip : cs ++ rest = cs' ++ rest' := by
    rw [← h.skip_append hbefore rest, heq, h'.skip_append hbefore' rest']
  have hnext : some (t, rest) = some (t', rest') := by
    rw [← h.next?_append hrest, hskip, h'.next?_append hrest']
  obtain ⟨-, rfl⟩ := Prod.mk.inj (Option.some.inj hnext)
  obtain rfl := List.append_cancel_right hskip
  rw [List.append_assoc, List.append_assoc] at heq
  exact ⟨List.append_cancel_right heq, rfl, rfl⟩

namespace Grammar

/-- The text of an interval is a lexeme that goes on with neither a digit nor a point. -/
theorem UniformText.exists_lexeme {u : Uniform} {cs : List Char} (h : UniformText u cs) :
    ∃ t : Token, t.Lexeme cs ∧ ∀ rest, Stops (cs ++ rest) := by
  obtain ⟨t, ht, hu⟩ := uniformText_iff.1 h
  refine ⟨t, ht, ht.stops_append ?_⟩
  rintro l rfl
  cases hu

namespace Reading

/-- The lexeme that comes first. -/
def first : Reading → List Char
  | ⟨_, none, value, _⟩ => value
  | ⟨_, some (count, _), _, _⟩ => count

/-- What comes behind the first lexeme. -/
def rest : Reading → List Char
  | ⟨_, none, _, after⟩ => after
  | ⟨_, some (_, between), value, after⟩ => between ++ value ++ after

theorem text_eq (r : Reading) : r.text = r.before ++ r.first ++ r.rest := by
  rcases r with ⟨before, _ | ⟨count, between⟩, value, after⟩
  · rfl
  · simp only [text, first, rest, List.append_assoc]

namespace Denotes

variable {r r' : Reading} {p p' : Pool Float}

/-- A reading begins with blanks and a lexeme that ends there. -/
theorem exists_first (h : r.Denotes p) :
    ∃ t : Token, t.Lexeme r.first ∧ Spaces r.before ∧ Stops r.rest := by
  cases h with
  | once h hbefore hafter =>
    obtain ⟨t, ht, -⟩ := dieText_iff.1 h
    exact ⟨t, ht, hbefore, hafter.stops⟩
  | times h h' _ hbefore hbetween _ =>
    obtain ⟨t, ht, -⟩ := dieText_iff.1 h
    obtain ⟨-, -, hstops⟩ := h'.exists_lexeme
    refine ⟨t, ht, hbefore, ?_⟩
    rw [rest, List.append_assoc]
    exact hbetween.stops_append (hstops _)

/-- Only blanks come behind the first lexeme if there is no count. -/
theorem spaces_rest_iff (h : r.Denotes p) : Spaces r.rest ↔ r.count = none := by
  cases h with
  | once _ _ hafter => exact iff_of_true hafter rfl
  | times _ h' =>
    obtain ⟨t, ht, -⟩ := h'.exists_lexeme
    obtain ⟨c, tail, rfl, hc⟩ := ht.exists_cons
    refine iff_of_false (fun hspaces => ?_) (by rintro ⟨⟩)
    rw [hspaces c (by simp [rest])] at hc
    cases hc

/-- **A text has one reading.** -/
theorem unique (h : r.Denotes p) (h' : r'.Denotes p') (htext : r.text = r'.text) : r = r' := by
  obtain ⟨t, ht, hbefore, hstops⟩ := h.exists_first
  obtain ⟨t', ht', hbefore', hstops'⟩ := h'.exists_first
  rw [text_eq, text_eq] at htext
  obtain ⟨hsame, hfirst, hrest⟩ := ht.peel ht' hbefore hbefore' hstops hstops' htext
  have hcount : r.count = none ↔ r'.count = none := by
    rw [← h.spaces_rest_iff, hrest, h'.spaces_rest_iff]
  cases h with
  | once =>
    cases h' with
    | once =>
      rw [Reading.mk.injEq]
      exact ⟨hsame, rfl, hfirst, hrest⟩
    | times => cases hcount.1 rfl
  | times _ hu _ _ hbetween hafter =>
    cases h' with
    | once => cases hcount.2 rfl
    | times _ hu' _ _ hbetween' hafter' =>
      obtain ⟨v, hv, -⟩ := hu.exists_lexeme
      obtain ⟨v', hv', -⟩ := hu'.exists_lexeme
      obtain ⟨rfl, hvalue, hend⟩ :=
        hv.peel hv' hbetween hbetween' hafter.stops hafter'.stops hrest
      obtain rfl : _ = _ := hfirst
      rw [Reading.mk.injEq]
      exact ⟨hsame, rfl, hvalue, hend⟩

end Denotes

/-- The readings that denote a pool are the spellings of tokens that denote it. -/
theorem exists_denotes_iff {cs : List Char} {p : Pool Float} :
    (∃ r : Reading, r.text = cs ∧ r.Denotes p) ↔
      ∃ s : Shape, s.Spelled cs ∧ s.pool? = some p := by
  constructor
  · rintro ⟨r, rfl, ⟨h, hbefore, hafter⟩ | ⟨h, h', hone, hbefore, hbetween, hafter⟩⟩
    · obtain ⟨t, ht, hd⟩ := dieText_iff.1 h
      refine ⟨.one t, .one ht hbefore hafter, ?_⟩
      rw [Shape.pool?, hd, Option.map_some]
    · obtain ⟨t, ht, hd⟩ := dieText_iff.1 h
      obtain ⟨v, hv, hu⟩ := uniformText_iff.1 h'
      refine ⟨.two t v, .two ht hv hbefore hbetween hafter, ?_⟩
      simp only [Shape.pool?, hd, hu, Option.bind_eq_bind, Option.bind_some]
      rw [toOption_eq_some_iff, Pool.ofCount_eq_ok_iff]
      exact ⟨h.not_lt_one_iff.2 hone, rfl⟩
  · rintro ⟨s, ⟨ht, hbefore, hafter⟩ | ⟨ht, hv, hbefore, hbetween, hafter⟩, hp⟩
    · obtain ⟨d, hd, rfl⟩ := Option.map_eq_some_iff.1 hp
      exact ⟨_, rfl, .once (dieText_iff.2 ⟨_, ht, hd⟩) hbefore hafter⟩
    · simp only [Shape.pool?, Option.bind_eq_bind, Option.bind_eq_some_iff] at hp
      obtain ⟨u, hu, c, hc, hcount⟩ := hp
      obtain ⟨hone, rfl⟩ := Pool.ofCount_eq_ok_iff.1 (toOption_eq_some_iff.1 hcount)
      have h : DieText c _ := dieText_iff.2 ⟨_, ht, hc⟩
      exact ⟨_, rfl, .times h (uniformText_iff.2 ⟨_, hv, hu⟩) (h.not_lt_one_iff.1 hone) hbefore
        hbetween hafter⟩

end Reading
end Grammar

open Grammar in
/-- **A node is accepted exactly if it has a reading,** and denotes the pool that the reading
denotes.  No text has two readings, and no reading denotes two pools. -/
theorem Pool.ofNode?_eq_some_iff_denotes (text : String) :
    (∀ p : Pool Float, ofNode? text = some p ↔
      ∃ r : Reading, r.text = text.toList ∧ r.Denotes p) ∧
    {q : Reading × Pool Float | q.1.text = text.toList ∧ q.1.Denotes q.2}.Subsingleton := by
  have haccepted (p : Pool Float) : ofNode? text = some p ↔
      ∃ r : Reading, r.text = text.toList ∧ r.Denotes p := by
    rw [Reading.exists_denotes_iff, ← ofNode?_eq_some_iff, String.ofList_toList]
  refine ⟨haccepted, ?_⟩
  rintro ⟨r, p⟩ ⟨htext, hr⟩ ⟨r', p'⟩ ⟨htext', hr'⟩
  have hp : some p = some p' := by
    rw [← (haccepted p).2 ⟨r, htext, hr⟩, (haccepted p').2 ⟨r', htext', hr'⟩]
  exact Prod.ext (hr.unique hr' (htext.trans htext'.symm)) (Option.some.inj hp)

end DiceFormula
