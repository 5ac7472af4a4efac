/-
# Written digits

What is written begins with a digit, behind a sign if there is one.  The digits behind a
point are filled up with zeros, which add nothing to the number that they are read as, so
the digits before and behind the point together read as the number that was written
(`Digits.toNat_whole_append_fraction`).
-/

import DiceFormula.Number.Exact

namespace DiceFormula
namespace Digits

theorem isDigit_of_mem_padded {width n : Nat} {c : Char} (h : c ∈ padded width n) :
    c.isDigit = true := by
  rw [padded, List.mem_append] at h
  rcases h with h | h
  · rw [List.eq_of_mem_replicate h]
    rfl
  · exact isDigit_of_mem_ofNat h

theorem length_padded {width n : Nat} (hw : 0 < width) (h : n < placeValue width) :
    (padded width n).length = width := by
  have hle : (ofNat n).length ≤ width := (Nat.length_toDigits_le_iff (by decide) hw).2 h
  rw [padded, List.length_append, List.length_replicate]
  omega

theorem toNat_padded (width n : Nat) : toNat (padded width n) = n := by
  rw [padded, toNat, Nat.ofDigitChars_append, Nat.ofDigitChars_replicate_zero, Nat.mul_zero]
  exact toNat_ofNat n

/-- The digits before and behind the point read as the number that is written. -/
theorem toNat_whole_append_fraction (k n : Nat) :
    toNat (ofNat (n / placeValue (k + 1)) ++ padded (k + 1) (n % placeValue (k + 1))) = n := by
  have hlt : n % placeValue (k + 1) < placeValue (k + 1) :=
    Nat.mod_lt n (Nat.pow_pos (by decide))
  rw [toNat, Nat.ofDigitChars_append, Nat.ofDigitChars_eq_ofDigitChars_zero,
    length_padded (Nat.succ_pos k) hlt]
  have hwhole := toNat_ofNat (n / placeValue (k + 1))
  have hfraction := toNat_padded (k + 1) (n % placeValue (k + 1))
  rw [toNat] at hwhole hfraction
  rw [hwhole, hfraction]
  exact Nat.div_add_mod n (placeValue (k + 1))

theorem exists_ofNat_eq (n : Nat) : ∃ d ds, ofNat n = d :: ds ∧ d.isDigit = true := by
  obtain ⟨d, ds, h⟩ := List.exists_cons_of_ne_nil (ofNat_ne_nil n)
  exact ⟨d, ds, h, isDigit_of_mem_ofNat (h ▸ List.mem_cons_self)⟩

theorem exists_pointed_eq (k n : Nat) : ∃ d ds, pointed k n = d :: ds ∧ d.isDigit = true := by
  cases k with
  | zero => exact exists_ofNat_eq n
  | succ k =>
    obtain ⟨d, ds, h, hd⟩ := exists_ofNat_eq (n / placeValue (k + 1))
    exact ⟨d, _, by rw [pointed, h, List.cons_append], hd⟩

/-- An integer is a natural number behind its sign. -/
theorem ofInt_eq_signed (n : Int) : ofInt n = Exact.signed (decide (n < 0)) (ofNat n.natAbs) := by
  cases n with
  | ofNat n => rw [decide_eq_false (by simp)]; rfl
  | negSucc n => rw [decide_eq_true (Int.negSucc_lt_zero n)]; rfl

end Digits
end DiceFormula
