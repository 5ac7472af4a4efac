/-
# Canonical texts of numbers

A whole number of tenths has one canonical text (`CanonicalText`): no zero stands in front of other
digits, a point stands only in front of a tenth that is not zero, and a minus sign only in front of
a number that is not zero.

| number | canonical text | not canonical |
| --- | --- | --- |
| `0` | `0` | `-0`, `00`, `.0` |
| `5/2` | `2.5` | `02.5`, `2.50` |
| `-1/10` | `-0.1` | `-.1` |
| `40` | `40` | `40.`, `40.0` |

There is such a text for each whole number of tenths (`Scalar.IsTenths.exists_canonicalText`), and
it is what the number prints as (`CanonicalText.eq_shortText`), so there is no other.  It is spelled
as a single number, and so it is read (`CanonicalText.numberOf?_eq`).  A number prints as its
nearest tenth does, so all of this holds of printed numbers (`Scalar.shortText_canonical`).  From
rounding they have it that they keep the order, and that opposite numbers print alike but for the
sign.
-/

import DiceFormula.Proofs.Expression.Lexeme
import DiceFormula.Proofs.Number.PlainDigits
import DiceFormula.Proofs.Number.RoundedTenths

namespace DiceFormula

/-- The canonical text of a whole number of tenths. -/
inductive CanonicalText : ℚ → List Char → Prop where
  | whole {ds} (negative : Bool) (hds : Digits.Plain ds) (hsign : negative = true → ds ≠ ['0']) :
      CanonicalText (Decimal.toRat (.ofParts negative ds [])) (Exact.signed negative ds)
  | tenth {ds} {d : Char} (negative : Bool) (hds : Digits.Plain ds) (hd : d.isDigit = true)
      (hne : d ≠ '0') :
      CanonicalText (Decimal.toRat (.ofParts negative ds [d]))
        (Exact.signed negative (ds ++ ['.', d]))

/-- The value of a text that is a single number. -/
def numberOf? (cs : List Char) : Option ℚ :=
  match Token.shape? cs with
  | some (.one (.number literal)) => some literal.toRat
  | _ => none

/-- The text of the opposite number: a minus sign goes or comes, but for zero. -/
def oppositeText : List Char → List Char
  | '-' :: cs => cs
  | ['0'] => ['0']
  | cs => '-' :: cs

/-! ### Values -/

namespace Decimal

theorem toRat_whole (negative : Bool) (ds : List Char) :
    toRat (ofParts negative ds []) =
      if negative then -(Digits.toNat ds : ℚ) else Digits.toNat ds := by
  rw [ofParts, toRat_eq_div, List.append_nil, List.length_nil, pow_zero, div_one]
  rfl

theorem toRat_tenth (negative : Bool) (ds : List Char) (d : Char) :
    toRat (ofParts negative ds [d]) = if negative then -(Digits.toNat (ds ++ [d]) / 10 : ℚ)
      else Digits.toNat (ds ++ [d]) / 10 := by
  rw [ofParts, toRat_eq_div, List.length_singleton, pow_one]
  rfl

theorem toRat_not (negative : Bool) (ds fs : List Char) :
    toRat (ofParts (!negative) ds fs) = -toRat (ofParts negative ds fs) := by
  rw [ofParts, ofParts, toRat_eq_div, toRat_eq_div]
  cases negative with
  | false => rfl
  | true => exact (neg_neg _).symm

end Decimal

namespace CanonicalText

variable {y : ℚ} {cs : List Char}

/-- **A canonical text is what the number prints as.** -/
theorem eq_shortText (h : CanonicalText y cs) : cs = Scalar.shortText y := by
  cases h with
  | @whole ds negative hds hsign =>
    rw [Decimal.toRat_whole]
    rcases eq_or_ne ds ['0'] with rfl | hne
    · have hfalse : negative = false := Bool.eq_false_iff.2 fun htrue => hsign htrue rfl
      have hzero : ((Digits.toNat ['0'] : ℕ) : ℚ) = 0 := Nat.cast_zero
      rw [hfalse, hzero]
      exact Scalar.shortText_zero.symm
    · have hpos : Digits.toNat ds ≠ 0 := mt hds.toNat_eq_zero_iff.1 hne
      rw [Scalar.shortText_natCast hpos, hds.ofNat_toNat]
  | @tenth ds d negative hds hd hne =>
    rw [Decimal.toRat_tenth, Scalar.shortText_natCast_div (Digits.toNat_concat_mod hd hne ds),
      hds.pointed_concat hd]

/-- **A canonical text is read as the number,** and as nothing besides. -/
theorem numberOf?_eq (h : CanonicalText y cs) : numberOf? cs = some y := by
  have read : ∀ {l : Decimal}, (Token.number l).Lexeme cs → numberOf? cs = some l.toRat := by
    intro l hlexeme
    have hblank : Token.Spaces [] := fun _ hc => absurd hc List.not_mem_nil
    have hshape := (Token.Shape.Spelled.one hlexeme hblank hblank).shape?_eq trivial
    rw [List.nil_append, List.append_nil] at hshape
    rw [numberOf?, hshape]
  cases h with
  | whole negative hds => exact read (.number negative (.whole hds.isDigit hds.ne_nil))
  | tenth negative hds hd =>
    refine read (.number negative (.pointed hds.isDigit ?_ (.inl hds.ne_nil)))
    rintro c hc
    rwa [List.mem_singleton.1 hc]

/-- A text that begins with a digit, with a minus sign or without. -/
theorem oppositeText_signed (negative : Bool) {c : Char} {cs : List Char}
    (hc : c.isDigit = true) (hne : c :: cs ≠ ['0']) :
    oppositeText (Exact.signed negative (c :: cs)) = Exact.signed (!negative) (c :: cs) := by
  cases negative with
  | true => rfl
  | false =>
    have hsign : c ≠ '-' := by
      rintro rfl
      cases hc
    unfold oppositeText
    split
    · rename_i heq
      exact absurd (List.cons.inj heq).1 hsign
    · rename_i heq
      exact absurd heq hne
    · rfl

/-- **The opposite number has the opposite text.** -/
theorem neg (h : CanonicalText y cs) : CanonicalText (-y) (oppositeText cs) := by
  cases h with
  | @whole ds negative hds hsign =>
    rcases eq_or_ne ds ['0'] with rfl | hne
    · have hfalse : negative = false := Bool.eq_false_iff.2 fun htrue => hsign htrue rfl
      have hzero : Decimal.toRat (.ofParts false ['0'] []) = 0 := by
        rw [Decimal.toRat_whole]
        exact Nat.cast_zero
      have htext : oppositeText (Exact.signed false ['0']) = Exact.signed false ['0'] := rfl
      rw [hfalse, htext, hzero, neg_zero, ← hzero]
      exact .whole false hds (by rintro ⟨⟩)
    · obtain ⟨c, tail, rfl⟩ := List.exists_cons_of_ne_nil hds.ne_nil
      rw [← Decimal.toRat_not, oppositeText_signed negative (hds.isDigit c (by simp)) hne]
      exact .whole _ hds fun _ => hne
  | @tenth ds d negative hds hd hne =>
    obtain ⟨c, tail, rfl⟩ := List.exists_cons_of_ne_nil hds.ne_nil
    have hzero : c :: (tail ++ ['.', d]) ≠ ['0'] := by simp
    rw [← Decimal.toRat_not, List.cons_append,
      oppositeText_signed negative (hds.isDigit c (by simp)) hzero, ← List.cons_append]
    exact .tenth _ hds hd hne

end CanonicalText

namespace Scalar

theorem exists_canonicalText_natCast_div (n : ℕ) : ∃ cs, CanonicalText (n / 10 : ℚ) cs := by
  have hplain := Digits.plain_ofNat (n / 10)
  have hlt : n % 10 < 10 := Nat.mod_lt n (by decide)
  rcases eq_or_ne (n % 10) 0 with hzero | hne
  · have hvalue : Decimal.toRat (.ofParts false (Digits.ofNat (n / 10)) []) = (n / 10 : ℚ) := by
      have hn : ((10 * (n / 10) : ℕ) : ℚ) = n := congrArg Nat.cast (by omega)
      rw [Decimal.toRat_whole, Digits.toNat_ofNat, if_neg Bool.false_ne_true, ← hn, Nat.cast_mul]
      exact (mul_div_cancel_left₀ _ (by norm_num)).symm
    rw [← hvalue]
    exact ⟨_, .whole false hplain (by rintro ⟨⟩)⟩
  · have hdigit : (n % 10).digitChar.toNat = 48 + n % 10 := Nat.toNat_digitChar_of_lt_ten hlt
    have hvalue : Decimal.toRat (.ofParts false (Digits.ofNat (n / 10)) [(n % 10).digitChar]) =
        (n / 10 : ℚ) := by
      have hn : 10 * (n / 10) + ((n % 10).digitChar.toNat - 48) = n := by omega
      rw [Decimal.toRat_tenth, Digits.toNat_concat, Digits.toNat_ofNat,
        if_neg Bool.false_ne_true, hn]
    rw [← hvalue]
    refine ⟨_, .tenth false hplain ?_ ?_⟩
    · refine Digits.isDigit_of_mem_ofNat (n := n % 10) ?_
      rw [Digits.ofNat, Nat.toDigits_of_lt_base hlt]
      exact List.mem_singleton_self _
    · intro heq
      have hnone : ('0' : Char).toNat = 48 := rfl
      rw [heq] at hdigit
      omega

/-- **A whole number of tenths has a canonical text.** -/
theorem IsTenths.exists_canonicalText {y : ℚ} (h : IsTenths y) : ∃ cs, CanonicalText y cs := by
  obtain ⟨m, rfl⟩ := h
  obtain ⟨n, rfl | rfl⟩ := m.eq_nat_or_neg
  · exact exists_canonicalText_natCast_div n
  · obtain ⟨cs, hcs⟩ := exists_canonicalText_natCast_div n
    refine ⟨oppositeText cs, ?_⟩
    rw [Int.cast_neg, neg_div]
    exact hcs.neg

/-- **A number prints as the canonical text of its nearest tenth,** of two equally near ones the one
farther from zero, and that is read as this tenth, and as nothing besides.  So what is printed
keeps the order, the opposite number prints as the opposite text, and what is read back prints
the same. -/
theorem shortText_canonical (x : ℚ) : ∃ y, (∀ z, IsNearestTenth x z ↔ z = y) ∧
    (∀ cs, CanonicalText y cs ↔ cs = shortText x) ∧ numberOf? (shortText x) = some y ∧
    shortText y = shortText x ∧
    (∀ x', x ≤ x' → ∃ y', y ≤ y' ∧ numberOf? (shortText x') = some y') ∧
    shortText (-x) = oppositeText (shortText x) := by
  have canonical : ∀ x : ℚ, CanonicalText (toTenths x) (shortText x) := by
    intro x
    obtain ⟨cs, hcs⟩ := (toTenths_isTenths x).exists_canonicalText
    have htext := hcs.eq_shortText
    rw [shortText_toTenths] at htext
    rwa [htext] at hcs
  refine ⟨toTenths x, fun z => isNearestTenth_iff, fun cs => ?_, (canonical x).numberOf?_eq,
    shortText_toTenths x, fun x' hx => ⟨_, toTenths_mono hx, (canonical x').numberOf?_eq⟩, ?_⟩
  · constructor
    · intro h
      rw [h.eq_shortText, shortText_toTenths]
    · rintro rfl
      exact canonical x
  · have hneg := (canonical x).neg
    rw [← toTenths_neg] at hneg
    rw [hneg.eq_shortText, shortText_toTenths]

/-- A quarter below zero is a tie: it prints as the tenth farther from zero, which is read as a
number that is not above what a quarter prints as. -/
theorem shortText_canonical_quarter : IsNearestTenth (-1 / 4) (-3 / 10) ∧
    CanonicalText (-3 / 10) ['-', '0', '.', '3'] ∧
    ∃ y', -3 / 10 ≤ y' ∧ numberOf? (shortText (1 / 4 : ℚ)) = some y' := by
  have hprint : shortText (-1 / 4 : ℚ) = ['-', '0', '.', '3'] := by decide +kernel
  have hvalue : numberOf? ['-', '0', '.', '3'] = some (-3 / 10) := by decide +kernel
  obtain ⟨y, hnear, htext, hread, -, hmono, -⟩ := shortText_canonical (-1 / 4)
  rw [hprint, hvalue] at hread
  obtain rfl := Option.some.inj hread
  exact ⟨(hnear _).2 rfl, (htext _).2 hprint.symm, hmono (1 / 4) (by norm_num)⟩

end Scalar
end DiceFormula
