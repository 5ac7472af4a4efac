/-
# Written tokens read back

A number, a die and an interval that are written in front of other text are read back
as what they are, and the other text is left over.  A token takes as many characters
as it can, so this needs that the text behind a number or a die does not begin with a
digit (`Token.NoDigit`), and behind a number without places not with a point either.
-/

import DiceFormula.Die.Formula
import DiceFormula.Expression.Node
import DiceFormula.Proofs.Die.Checked
import DiceFormula.Proofs.Number.Digits
import Mathlib.Data.List.TakeDrop

namespace DiceFormula
namespace Token

/-- A text that does not begin with a digit. -/
def NoDigit (cs : List Char) : Prop := ∀ c ∈ cs.head?, c.isDigit = false

theorem noDigit_nil : NoDigit [] := by
  rintro _ ⟨⟩

theorem noDigit_cons {c : Char} {cs : List Char} (h : c.isDigit = false) : NoDigit (c :: cs) := by
  rintro _ ⟨⟩
  exact h

/-- **Digits are split off up to the first character that is none.** -/
theorem digits_append {ds rest : List Char} (hd : ∀ c ∈ ds, c.isDigit = true)
    (hr : NoDigit rest) : digits (ds ++ rest) = (ds, rest) := by
  rw [digits, List.span_eq_takeWhile_dropWhile, List.takeWhile_append_of_pos hd,
    List.dropWhile_append_of_pos hd]
  cases rest with
  | nil => rw [List.takeWhile_nil, List.dropWhile_nil, List.append_nil]
  | cons c rest =>
    have hc : ¬ c.isDigit = true := by simp [hr c rfl]
    rw [List.takeWhile_cons_of_neg hc, List.dropWhile_cons_of_neg hc, List.append_nil]

theorem digits_ofNat (n : Nat) {rest : List Char} (hr : NoDigit rest) :
    digits (Digits.ofNat n ++ rest) = (Digits.ofNat n, rest) :=
  digits_append (fun _ => Digits.isDigit_of_mem_ofNat) hr

/-- A sign is only taken off where it is written. -/
theorem sign_of_isDigit {d : Char} (hd : d.isDigit = true) (cs : List Char) :
    sign (d :: cs) = (false, d :: cs) := by
  have hne : d ≠ '-' := by
    rintro rfl
    cases hd
  rw [sign]
  rintro _ ⟨⟩
  exact hne rfl

theorem sign_signed (negative : Bool) {cs : List Char}
    (h : ∃ d ds, cs = d :: ds ∧ d.isDigit = true) (rest : List Char) :
    sign (Exact.signed negative cs ++ rest) = (negative, cs ++ rest) := by
  obtain ⟨d, ds, rfl, hd⟩ := h
  cases negative with
  | false => exact sign_of_isDigit hd _
  | true => rfl

/-- **A number without its sign reads back.** -/
theorem unsignedNumber?_pointed (negative : Bool) (k n : Nat) {rest : List Char}
    (hr : NoDigit rest) (hpoint : k = 0 → rest.head? ≠ some '.') :
    unsignedNumber? negative (Digits.pointed k n ++ rest) = some (⟨negative, n, k⟩, rest) := by
  cases k with
  | zero =>
    obtain ⟨d, ds, h, -⟩ := Digits.exists_ofNat_eq n
    have hn : Decimal.ofParts negative (d :: ds) [] = ⟨negative, n, 0⟩ := by
      rw [Decimal.ofParts, List.append_nil, ← h]
      congr 1
      exact Digits.toNat_ofNat n
    rw [Digits.pointed, unsignedNumber?, digits_ofNat n hr, h, ← hn]
    cases rest with
    | nil => rfl
    | cons c rest =>
      have hc : c ≠ '.' := fun hc => hpoint rfl (congrArg some hc)
      split
      · rename_i heq
        cases heq
      · rename_i heq
        cases heq
      · rename_i heq
        cases heq
        exact absurd rfl hc
      · rename_i heq
        cases heq
        rfl
  | succ k =>
    obtain ⟨d, ds, h, -⟩ := Digits.exists_ofNat_eq (n / placeValue (k + 1))
    have hfraction : digits (Digits.padded (k + 1) (n % placeValue (k + 1)) ++ rest) =
        (Digits.padded (k + 1) (n % placeValue (k + 1)), rest) :=
      digits_append (fun _ => Digits.isDigit_of_mem_padded) hr
    have hlt : n % placeValue (k + 1) < 10 ^ (k + 1) := Nat.mod_lt n (Nat.pow_pos (by decide))
    have hn : Decimal.ofParts negative (d :: ds)
        (Digits.padded (k + 1) (n % placeValue (k + 1))) = ⟨negative, n, k + 1⟩ := by
      rw [Decimal.ofParts, ← h, Digits.length_padded (Nat.succ_pos k) hlt]
      congr 1
      exact Digits.toNat_whole_append_fraction k n
    have hpoint : NoDigit ('.' :: (Digits.padded (k + 1) (n % placeValue (k + 1)) ++ rest)) :=
      noDigit_cons rfl
    have hwhole := digits_ofNat (n / placeValue (k + 1)) hpoint
    rw [Digits.pointed, List.append_assoc, List.cons_append, unsignedNumber?, hwhole, h, ← hn]
    simp only [hfraction]

/-- **A number reads back.** -/
theorem next?_number (negative : Bool) (k n : Nat) {rest : List Char} (hr : NoDigit rest)
    (hpoint : k = 0 → rest.head? ≠ some '.') :
    next? (Exact.signed negative (Digits.pointed k n) ++ rest) =
      some (.number ⟨negative, n, k⟩, rest) := by
  have hnumber : number? (Exact.signed negative (Digits.pointed k n) ++ rest) =
      some (⟨negative, n, k⟩, rest) := by
    rw [number?, sign_signed negative (Digits.exists_pointed_eq k n) rest]
    exact unsignedNumber?_pointed negative k n hr hpoint
  obtain ⟨d, ds, h, hd⟩ := Digits.exists_pointed_eq k n
  have hnext : next? (Exact.signed negative (Digits.pointed k n) ++ rest) =
      (number? (Exact.signed negative (Digits.pointed k n) ++ rest)).map
        fun read => (.number read.1, read.2) := by
    rw [h]
    cases negative with
    | true => rfl
    | false =>
      rw [Exact.signed, if_neg Bool.false_ne_true, List.cons_append, next?]
      · rintro cs ⟨⟩
        cases hd
      · rintro cs ⟨⟩
        cases hd
  rw [hnext, hnumber, Option.map_some]

/-- **An integer that fits into 64 bits reads back.** -/
theorem integer?_ofInt {n : Int} (hn : smallestInt ≤ n ∧ n ≤ largestInt) {rest : List Char}
    (hr : NoDigit rest) : integer? (Digits.ofInt n ++ rest) = some (n, rest) := by
  obtain ⟨d, ds, h, hd⟩ := Digits.exists_ofNat_eq n.natAbs
  have hdigits : digits (Digits.ofNat n.natAbs ++ rest) = (d :: ds, rest) := by
    rw [digits_ofNat n.natAbs hr, h]
  have hval : Digits.toNat (d :: ds) = n.natAbs := by
    rw [← h]
    exact Digits.toNat_ofNat _
  have hsigned : (if decide (n < 0) = true then -(n.natAbs : Int) else n.natAbs) = n := by
    simp only [decide_eq_true_eq]
    split_ifs <;> omega
  rw [Digits.ofInt_eq_signed, integer?, sign_signed _ ⟨d, ds, h, hd⟩ rest]
  simp only [hdigits, hval, hsigned, fit?, if_pos hn]
  rfl

theorem skipInner_ofInt (n : Int) (rest : List Char) :
    skipInner (Digits.ofInt n ++ rest) = Digits.ofInt n ++ rest := by
  obtain ⟨d, ds, h, hd⟩ := Digits.exists_ofNat_eq n.natAbs
  have hspace : ¬ isInnerSpace d = true := by
    rw [isInnerSpace, Bool.or_eq_true, beq_iff_eq, beq_iff_eq]
    rintro (rfl | rfl) <;> cases hd
  rw [Digits.ofInt_eq_signed, h]
  cases decide (n < 0) with
  | false => exact List.dropWhile_cons_of_neg hspace
  | true => rfl

theorem die?_ofNat {n : Nat} (hn : (n : Int) ≤ largestInt) {rest : List Char}
    (hr : NoDigit rest) : die? (Digits.ofNat n ++ rest) = some (.die n, rest) := by
  obtain ⟨d, ds, h, -⟩ := Digits.exists_ofNat_eq n
  have hdigits : digits (Digits.ofNat n ++ rest) = (d :: ds, rest) := by
    rw [digits_ofNat n hr, h]
  have hval : Digits.toNat (d :: ds) = n := by
    rw [← h]
    exact Digits.toNat_ofNat n
  have hfit : fit? n = some (n : Int) := by
    rw [fit?, if_pos ⟨by rw [smallestInt]; omega, hn⟩]
  rw [die?]
  simp only [hdigits, hval, hfit]
  rfl

theorem interval?_ofInt {min max : Int} (hmin : smallestInt ≤ min ∧ min ≤ largestInt)
    (hmax : smallestInt ≤ max ∧ max ≤ largestInt) (rest : List Char) :
    interval? (Digits.ofInt min ++ ',' :: ' ' :: (Digits.ofInt max ++ ']' :: rest)) =
      some (.interval min max, rest) := by
  have hlow : integer? (Digits.ofInt min ++ ',' :: ' ' :: (Digits.ofInt max ++ ']' :: rest)) = _ :=
    integer?_ofInt hmin (noDigit_cons rfl)
  have hhigh : integer? (Digits.ofInt max ++ ']' :: rest) = _ :=
    integer?_ofInt hmax (noDigit_cons rfl)
  have hcomma : skipInner (',' :: ' ' :: (Digits.ofInt max ++ ']' :: rest)) =
      ',' :: ' ' :: (Digits.ofInt max ++ ']' :: rest) := rfl
  have hspace : skipInner (' ' :: (Digits.ofInt max ++ ']' :: rest)) =
      skipInner (Digits.ofInt max ++ ']' :: rest) := rfl
  have hbracket : skipInner (']' :: rest) = ']' :: rest := rfl
  rw [interval?, skipInner_ofInt, hlow]
  simp only [Option.bind_eq_bind, Option.bind_some, hcomma, hspace, skipInner_ofInt, hhigh,
    hbracket]
  rfl

theorem isSpace_of_isDigit {d : Char} (hd : d.isDigit = true) : isSpace d = false := by
  cases h : isSpace d with
  | false => rfl
  | true =>
    simp only [isSpace, Bool.or_eq_true, beq_iff_eq] at h
    rcases h with ((rfl | rfl) | rfl) | rfl <;> cases hd

theorem skip_of_head {c : Char} {cs : List Char} (hc : isSpace c = false) :
    skip (c :: cs) = c :: cs := by
  rw [skip, List.dropWhile_cons_of_neg (by rw [hc]; exact Bool.false_ne_true)]

theorem skip_signed (negative : Bool) (k n : Nat) (rest : List Char) :
    skip (Exact.signed negative (Digits.pointed k n) ++ rest) =
      Exact.signed negative (Digits.pointed k n) ++ rest := by
  obtain ⟨d, ds, h, hd⟩ := Digits.exists_pointed_eq k n
  cases negative with
  | true => rfl
  | false =>
    rw [Exact.signed, if_neg Bool.false_ne_true, h, List.cons_append]
    exact skip_of_head (isSpace_of_isDigit hd)

/-- A text that is one token. -/
theorem shape?_one {cs : List Char} {t : Token} (hcs : skip cs = cs)
    (h : next? cs = some (t, [])) : shape? cs = some (.one t) := by
  rw [shape?, hcs, h]
  rfl

/-- A text that is one token, and then another without a blank between them. -/
theorem shape?_two {cs ds : List Char} {t t' : Token} (hcs : skip cs = cs)
    (h : next? cs = some (t, ds)) (hds : skip ds = ds) (hne : ds ≠ [])
    (h' : next? ds = some (t', [])) : shape? cs = some (.two t t') := by
  rw [shape?, hcs, h]
  simp only [Option.bind_eq_bind, Option.bind_some, hds]
  cases ds with
  | nil => exact absurd rfl hne
  | cons d ds =>
    rw [h']
    rfl

end Token

namespace Uniform

/-- An interval begins with a letter or a bracket. -/
theorem exists_chars_eq (u : Uniform) : ∃ cs, u.chars = 'd' :: cs ∨ u.chars = '[' :: cs := by
  rw [chars]
  split_ifs with h
  · exact ⟨_, .inl rfl⟩
  · exact ⟨_, .inr rfl⟩

theorem chars_ne_nil (u : Uniform) : u.chars ≠ [] := by
  obtain ⟨cs, h | h⟩ := u.exists_chars_eq <;> rw [h] <;> exact List.cons_ne_nil _ _

theorem noDigit_chars (u : Uniform) : Token.NoDigit u.chars := by
  obtain ⟨cs, h | h⟩ := u.exists_chars_eq <;> rw [h] <;> exact Token.noDigit_cons rfl

theorem head?_chars (u : Uniform) : u.chars.head? ≠ some '.' := by
  obtain ⟨cs, h | h⟩ := u.exists_chars_eq <;> rw [h] <;> rintro ⟨⟩

theorem skip_chars (u : Uniform) (rest : List Char) :
    Token.skip (u.chars ++ rest) = u.chars ++ rest := by
  obtain ⟨cs, h | h⟩ := u.exists_chars_eq <;> rw [h] <;> exact Token.skip_of_head rfl

/-- The token that an interval is written as. -/
def token (u : Uniform) : Token := if u.min = 1 then .die u.max else .interval u.min u.max

theorem toUniform?_token (u : Uniform) : u.token.toUniform? = some u := by
  rw [token]
  split_ifs with h
  · have hfaces : (ofFaces u.max : Except (ArgumentError Unit) Uniform) = .ok u :=
      ofFaces_eq_ok_iff.2 ⟨h, rfl⟩
    rw [Token.toUniform?, hfaces]
    rfl
  · rw [Token.toUniform?, ofInterval_eq]
    rfl

/-- **An interval reads back.** -/
theorem next?_chars (u : Uniform) {rest : List Char} (hr : Token.NoDigit rest) :
    Token.next? (u.chars ++ rest) = some (u.token, rest) := by
  have hle := u.min_le_max
  have hmin := u.smallest_le_min
  have hmax := u.max_lt_largest
  rw [chars, token]
  split_ifs with h
  · obtain ⟨n, hn⟩ := Int.eq_ofNat_of_zero_le (by omega : 0 ≤ u.max)
    rw [hn]
    exact Token.die?_ofNat (by omega) hr
  · simp only [List.cons_append, List.append_assoc, List.nil_append]
    exact Token.interval?_ofInt ⟨hmin, by omega⟩ ⟨by omega, by omega⟩ rest

theorem toDie?_token {α : Type} [Scalar α] (u : Uniform) :
    (u.token.toDie? : Option (Die α)) = some (.uniform u) := by
  have h : (u.token.toDie? : Option (Die α)) = u.token.toUniform?.map Die.uniform := by
    rw [token]
    split_ifs <;> rfl
  rw [h, toUniform?_token, Option.map_some]

/-- **An interval alone is one token.** -/
theorem shape?_chars (u : Uniform) : Token.shape? u.chars = some (.one u.token) := by
  have hskip := u.skip_chars []
  have hnext := u.next?_chars Token.noDigit_nil
  rw [List.append_nil] at hskip hnext
  exact Token.shape?_one hskip hnext

/-- **An interval behind another token is a second token.** -/
theorem shape?_append_chars (u : Uniform) {cs : List Char} {t : Token}
    (hskip : Token.skip (cs ++ u.chars) = cs ++ u.chars)
    (hnext : Token.next? (cs ++ u.chars) = some (t, u.chars)) :
    Token.shape? (cs ++ u.chars) = some (.two t u.token) := by
  have hskip' := u.skip_chars []
  have hnext' := u.next?_chars Token.noDigit_nil
  rw [List.append_nil] at hskip' hnext'
  exact Token.shape?_two hskip hnext hskip' u.chars_ne_nil hnext'

end Uniform
end DiceFormula
