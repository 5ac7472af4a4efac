/-
# Digits without needless zeros

The digits of a natural number are written without a zero in front of others (`Digits.plain_ofNat`),
and digits without such a zero are those of the number that they are read as
(`Digits.Plain.ofNat_toNat`).  So plain digits and natural numbers determine each other.  Both are
inductions on the last digit: what stands in front of it is a tenth of the number, without the
rest, and is plain too if anything is there.
-/

import DiceFormula.Proofs.Number.Digits
import Mathlib.Data.List.Induction

namespace DiceFormula
namespace Digits

/-- Digits of which the first is a zero only if it is alone. -/
structure Plain (ds : List Char) : Prop where
  isDigit : ∀ c ∈ ds, c.isDigit = true
  ne_nil : ds ≠ []
  eq_zero_of_head : ds.head? = some '0' → ds = ['0']

theorem ofNat_concat {n v : Nat} (hn : 0 < n) (hv : v < 10) :
    ofNat (10 * n + v) = ofNat n ++ [v.digitChar] := by
  rw [ofNat, ← Nat.toDigits_append_toDigits (by decide) hn hv, Nat.toDigits_of_lt_base hv]
  rfl

theorem toNat_concat (ds : List Char) (d : Char) :
    toNat (ds ++ [d]) = 10 * toNat ds + (d.toNat - 48) := by
  rw [toNat, Nat.ofDigitChars_append, Nat.ofDigitChars_cons, Nat.ofDigitChars_nil]
  rfl

/-- A digit is the digit of what it is worth. -/
theorem digit_spec {d : Char} (h : d.isDigit = true) :
    d.toNat - 48 < 10 ∧ (d.toNat - 48).digitChar = d := by
  have hrange : 48 ≤ d.toNat ∧ d.toNat ≤ 57 := by
    rw [Char.isDigit, Bool.and_eq_true, decide_eq_true_iff, decide_eq_true_iff] at h
    exact h
  refine ⟨by omega, Char.toNat_inj.1 ?_⟩
  rw [Nat.toNat_digitChar_of_lt_ten (by omega)]
  omega

/-- A number that ends in a digit other than zero is no multiple of ten. -/
theorem toNat_concat_mod {d : Char} (hd : d.isDigit = true) (hne : d ≠ '0') (ds : List Char) :
    toNat (ds ++ [d]) % 10 ≠ 0 := by
  obtain ⟨hv, hdigit⟩ := digit_spec hd
  rw [toNat_concat]
  intro hzero
  have hnone : d.toNat - 48 = 0 := by omega
  rw [hnone] at hdigit
  exact hne hdigit.symm

/-- The first of some digits stays the first. -/
theorem head?_concat {ds : List Char} (h : ds ≠ []) (d : Char) :
    (ds ++ [d]).head? = ds.head? := by
  cases ds with
  | nil => exact absurd rfl h
  | cons c ds => rfl

/-- **Natural numbers are written plainly.** -/
theorem plain_ofNat (n : Nat) : Plain (ofNat n) where
  isDigit _ hc := isDigit_of_mem_ofNat hc
  ne_nil := ofNat_ne_nil n
  eq_zero_of_head := by
    induction n using Nat.strongRecOn with
    | ind n ih =>
      rcases Nat.lt_or_ge n 10 with hn | hn
      · rw [ofNat, Nat.toDigits_of_lt_base hn]
        exact fun h => congrArg (· :: []) (Option.some.inj h)
      · -- The front is a number above zero, so it does not begin with a zero.
        have hsplit := ofNat_concat (n := n / 10) (by omega) (Nat.mod_lt n (by decide))
        rw [Nat.div_add_mod] at hsplit
        rw [hsplit, head?_concat (ofNat_ne_nil _)]
        intro h
        have hzero : toNat (ofNat (n / 10)) = toNat ['0'] := by rw [ih _ (by omega) h]
        rw [toNat_ofNat] at hzero
        have hnone : toNat ['0'] = 0 := rfl
        omega

namespace Plain

/-- What stands in front of the last digit is plain, and is no zero. -/
theorem front {ds : List Char} {d : Char} (h : Plain (ds ++ [d])) (hne : ds ≠ []) :
    Plain ds ∧ ds.head? ≠ some '0' := by
  have hhead : ds.head? ≠ some '0' := by
    intro hzero
    rw [← head?_concat hne d] at hzero
    have hlength := congrArg List.length (h.eq_zero_of_head hzero)
    rw [List.length_append, List.length_singleton, List.length_singleton] at hlength
    exact hne (List.eq_nil_of_length_eq_zero (by omega))
  exact ⟨⟨fun c hc => h.isDigit c (List.mem_append_left _ hc), hne,
    fun hzero => absurd hzero hhead⟩, hhead⟩

/-- **Plain digits are those of the number that they are read as.** -/
theorem ofNat_toNat {ds : List Char} (h : Plain ds) : ofNat (toNat ds) = ds := by
  induction ds using List.reverseRecOn with
  | nil => exact absurd rfl h.ne_nil
  | append_singleton ds d ih =>
    obtain ⟨hv, hd⟩ := digit_spec (h.isDigit d (by simp))
    rcases Decidable.em (ds = []) with rfl | hne
    · have hsingle : toNat ([] ++ [d]) = d.toNat - 48 :=
        (toNat_concat [] d).trans (Nat.zero_add _)
      rw [hsingle, ofNat, Nat.toDigits_of_lt_base hv, hd, List.nil_append]
    · obtain ⟨hds, hhead⟩ := h.front hne
      have hpos : 0 < toNat ds := by
        refine Nat.pos_of_ne_zero fun hzero => hhead ?_
        rw [← ih hds, hzero]
        rfl
      rw [toNat_concat, ofNat_concat hpos hv, ih hds, hd]

/-- Plain digits and one more are a number with one place. -/
theorem pointed_concat {ds : List Char} {d : Char} (h : Plain ds) (hd : d.isDigit = true) :
    pointed 1 (toNat (ds ++ [d])) = ds ++ ['.', d] := by
  obtain ⟨hv, hdigit⟩ := digit_spec hd
  have hplace : placeValue (0 + 1) = 10 := rfl
  have hdiv : (10 * toNat ds + (d.toNat - 48)) / 10 = toNat ds := by omega
  have hmod : (10 * toNat ds + (d.toNat - 48)) % 10 = d.toNat - 48 := by omega
  have hone : ofNat (d.toNat - 48) = [d] := by
    rw [ofNat, Nat.toDigits_of_lt_base hv, hdigit]
  rw [pointed, hplace, toNat_concat, hdiv, hmod, h.ofNat_toNat, padded, hone]
  rfl

theorem toNat_eq_zero_iff {ds : List Char} (h : Plain ds) : toNat ds = 0 ↔ ds = ['0'] := by
  constructor
  · intro hzero
    rw [← h.ofNat_toNat, hzero]
    rfl
  · rintro rfl
    rfl

end Plain
end Digits
end DiceFormula
