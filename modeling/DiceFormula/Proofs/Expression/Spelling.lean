/-
# Pools and their spelling

A pool in normal form and its formula are related by `Pool.Spells`, one case for each
form of a node:

| pool | formula |
| --- | --- |
| a fixed value | the literal of that value |
| an interval | `dn`, or both ends in brackets |
| `n` rolls of an interval | `n` and then the interval |
| as many rolls as an interval says | both intervals |

The formula of a plain pool spells its normal form (`Pool.IsPlain.exists_spells`), what
spells a pool is read as that pool (`Pool.Spells.ofNode?_eq`), and it is the text of a
node, with nothing in it that cuts (`Pool.Spells.nodeText`).
-/

import DiceFormula.Proofs.Die.Normal
import DiceFormula.Proofs.Expression.Cut
import DiceFormula.Proofs.Expression.Reading

namespace DiceFormula
namespace Pool

/-! ### Nodes -/

section

variable {α : Type} [Scalar α]

/-- **A literal is read as its value,** if that is finite. -/
theorem ofNode?_number {negative : Bool} {k n : ℕ}
    (hfinite : Scalar.isFinite (Scalar.ofDecimal ⟨negative, n, k⟩ : α) = true) :
    Pool.ofNode? (String.ofList (Exact.signed negative (Digits.pointed k n))) =
      some (.single (.fixed (Scalar.ofDecimal ⟨negative, n, k⟩ : α))) := by
  have hskip := Token.skip_signed negative k n []
  have hnext := Token.next?_number negative k n Token.noDigit_nil (fun _ => by rintro ⟨⟩)
  rw [List.append_nil] at hskip hnext
  rw [ofNode?, String.toList_ofList, Token.shape?_one hskip hnext, Option.bind_some,
    Token.Shape.pool?, Token.toDie?, Die.ofFixed, if_pos hfinite]
  rfl

theorem ofNode?_chars (u : Uniform) :
    Pool.ofNode? (String.ofList u.chars) = some (.single (.uniform u) : Pool α) := by
  rw [ofNode?, String.toList_ofList, u.shape?_chars, Option.bind_some, Token.Shape.pool?,
    u.toDie?_token, Option.map_some]

/-- **A literal and an interval are read as a pool,** if the literal is a count. -/
theorem ofNode?_times {n : ℕ}
    (hfinite : Scalar.isFinite (Scalar.ofDecimal ⟨false, n, 0⟩ : α) = true)
    (hone : ¬ Scalar.trunc (Scalar.ofDecimal ⟨false, n, 0⟩ : α) < Scalar.ofInt 1) (u : Uniform) :
    Pool.ofNode? (String.ofList (Digits.ofNat n ++ u.chars)) =
      some (.counted (.fixed (Scalar.ofDecimal ⟨false, n, 0⟩ : α)) (.uniform u)) := by
  have hnumber : Digits.ofNat n = Exact.signed false (Digits.pointed 0 n) := rfl
  have hok : ofCount noCustom (.fixed (Scalar.ofDecimal ⟨false, n, 0⟩ : α)) (.uniform u) =
      .ok (.counted (.fixed (Scalar.ofDecimal ⟨false, n, 0⟩)) (.uniform u)) := by
    rw [ofCount, Die.bounds]
    exact if_neg hone
  have hvalue : (Token.number ⟨false, n, 0⟩).toDie? =
      some (Die.fixed (Scalar.ofDecimal ⟨false, n, 0⟩ : α)) := by
    rw [Token.toDie?, Die.ofFixed, if_pos hfinite]
    rfl
  rw [ofNode?, String.toList_ofList, hnumber,
    u.shape?_append_chars (Token.skip_signed false 0 n u.chars)
      (Token.next?_number false 0 n u.noDigit_chars fun _ => u.head?_chars), Option.bind_some,
    Token.Shape.pool?, u.toUniform?_token, hvalue]
  simp only [Option.bind_eq_bind, Option.bind_some, hok]
  rfl

theorem ofNode?_dice {w u : Uniform}
    (hok : ofCount noCustom (Die.uniform (α := α) w) (.uniform u) =
      .ok (.counted (.uniform w) (.uniform u))) :
    Pool.ofNode? (String.ofList (w.chars ++ u.chars)) =
      some (.counted (.uniform w) (.uniform u) : Pool α) := by
  rw [ofNode?, String.toList_ofList,
    u.shape?_append_chars (w.skip_chars u.chars) (w.next?_chars u.noDigit_chars),
    Option.bind_some, Token.Shape.pool?, u.toUniform?_token, w.toDie?_token]
  simp only [Option.bind_eq_bind, Option.bind_some, hok]
  rfl

end

/-! ### Spelling -/

/-- A pool in normal form and its formula. -/
inductive Spells : Pool ℚ → List Char → Prop where
  | fixed (negative : Bool) (k n : ℕ) :
      Spells (.single (.fixed (Decimal.toRat ⟨negative, n, k⟩)))
        (Exact.signed negative (Digits.pointed k n))
  | uniform (u : Uniform) : Spells (.single (.uniform u)) u.chars
  | times {n : ℕ} (hn : 1 ≤ n) (u : Uniform) :
      Spells (.counted (.fixed n) (.uniform u)) (Digits.ofNat n ++ u.chars)
  | dice {w u : Uniform}
      (hok : ofCount noCustom (Die.uniform (α := ℚ) w) (.uniform u) =
        .ok (.counted (.uniform w) (.uniform u))) :
      Spells (.counted (.uniform w) (.uniform u)) (w.chars ++ u.chars)

/-- **The formula of a plain pool spells its normal form.** -/
theorem IsPlain.exists_spells {p : Pool ℚ} (hp : p.IsPlain) :
    ∃ cs, p.normal.Spells cs ∧ ∀ rest, p.write rest = cs ++ rest := by
  cases hp with
  | fixed x =>
    obtain ⟨negative, k, n, htext, hx⟩ := Scalar.exists_shortText_eq x
    refine ⟨_, ?_, fun rest => by rw [write, Die.write, htext]⟩
    rw [normal, Die.tenths, ← hx]
    exact .fixed negative k n
  | @once n x hn =>
    have hle : Scalar.trunc n ≤ (Scalar.ofInt 1 : ℚ) := by
      rw [hn, Scalar.ofInt_rat, Int.cast_one]
    obtain ⟨negative, k, n, htext, hx⟩ := Scalar.exists_shortText_eq x
    refine ⟨_, ?_, fun rest => by rw [write, if_pos hle, Die.write, htext]⟩
    rw [normal, if_pos hle, Die.tenths, ← hx]
    exact .fixed negative k n
  | uniform u => exact ⟨u.chars, .uniform u, fun rest => by rw [write, Die.write]⟩
  | @counted count u hc hok =>
    cases hc with
    | fixed n =>
      rw [normal]
      simp only [write]
      split_ifs with h
      · exact ⟨u.chars, .uniform u, fun rest => by rw [Die.write]⟩
      · have hone := le_trunc_of_ofCount hok
        have hcount := Scalar.toCount_rat (Scalar.trunc_mem_wholeNumbers n) hone
        rw [← hcount] at hone ⊢
        refine ⟨_, .times (Nat.one_le_cast.1 hone) u, fun rest => ?_⟩
        rw [Die.write, List.append_assoc, ← Int.cast_natCast, Scalar.text_intCast]
        rfl
    | uniform w =>
      refine ⟨w.chars ++ u.chars, ?_, fun rest => ?_⟩
      · rw [normal]
        · exact .dice hok
        · rintro _ ⟨⟩
      · rw [write, Die.write, Die.write, List.append_assoc]
        rintro _ ⟨⟩

/-- **What spells a pool is read as that pool.** -/
theorem Spells.ofNode?_eq {p : Pool ℚ} {cs : List Char} (h : p.Spells cs) :
    Pool.ofNode? (String.ofList cs) = some p := by
  cases h with
  | fixed negative k n => exact ofNode?_number rfl
  | uniform u => exact ofNode?_chars u
  | @times n hn u =>
    have hvalue : (Scalar.ofDecimal ⟨false, n, 0⟩ : ℚ) = n := Decimal.toRat_natCast n
    have hone : ¬ Scalar.trunc (Scalar.ofDecimal ⟨false, n, 0⟩ : ℚ) < Scalar.ofInt 1 := by
      rw [hvalue, ← Int.cast_natCast, Scalar.trunc_intCast, Scalar.ofInt_rat, Int.cast_lt]
      omega
    have h := ofNode?_times rfl hone u
    rwa [hvalue] at h
  | @dice w u hok => exact ofNode?_dice hok

end Pool

namespace Expression

theorem Solid.of_inert {cs : List Char} (h : ∀ c ∈ cs, isInert c = true) : Solid cs := by
  induction cs with
  | nil => exact .nil
  | cons c cs ih =>
    obtain ⟨hc, hcs⟩ := List.forall_mem_cons.1 h
    exact .inert hc (ih hcs)

theorem isInert_of_isDigit {c : Char} (hc : c.isDigit = true) : isInert c = true := by
  rw [isInert, hc]
  rfl

theorem solid_ofNat (n : ℕ) : Solid (Digits.ofNat n) :=
  .of_inert fun _ hc => isInert_of_isDigit (Digits.isDigit_of_mem_ofNat hc)

theorem solid_pointed (k n : ℕ) : Solid (Digits.pointed k n) := by
  cases k with
  | zero => exact solid_ofNat n
  | succ k =>
    refine (solid_ofNat _).append (.inert rfl (.of_inert fun _ hc => ?_))
    exact isInert_of_isDigit (Digits.isDigit_of_mem_padded hc)

/-- Digits with a sign or none hold neither brackets nor parentheses. -/
theorem not_mem_of_mem_signed {negative : Bool} {ds : List Char}
    (hds : ∀ c ∈ ds, c.isDigit = true) {c : Char} (hc : c ∈ Exact.signed negative ds) :
    c ∉ ['[', ']', '(', ')'] := by
  have hdigit : ∀ c ∈ ds, c ∉ ['[', ']', '(', ')'] := fun c hc =>
    not_mem_of_isInert (isInert_of_isDigit (hds c hc))
  cases negative with
  | false => exact hdigit c hc
  | true =>
    rcases List.mem_cons.1 hc with rfl | hc
    · decide
    · exact hdigit c hc

/-- An integer holds neither brackets nor parentheses. -/
theorem not_mem_of_mem_ofInt {n : ℤ} {c : Char} (hc : c ∈ Digits.ofInt n) :
    c ∉ ['[', ']', '(', ')'] := by
  rw [Digits.ofInt_eq_signed] at hc
  exact not_mem_of_mem_signed (fun _ => Digits.isDigit_of_mem_ofNat) hc

theorem solid_chars (u : Uniform) : Solid u.chars := by
  rw [Uniform.chars]
  split_ifs with h
  · have hle := u.min_le_max
    obtain ⟨n, hn⟩ := Int.eq_ofNat_of_zero_le (by omega : 0 ≤ u.max)
    rw [hn]
    exact .inert rfl (solid_ofNat n)
  · have inner : ∀ c ∈ Digits.ofInt u.min ++ [',', ' '] ++ Digits.ofInt u.max,
        c ∉ ['[', ']', '(', ')'] := by
      intro c hc
      rw [List.mem_append, List.mem_append, List.mem_pair] at hc
      rcases hc with (hc | rfl | rfl) | hc
      · exact not_mem_of_mem_ofInt hc
      · decide
      · decide
      · exact not_mem_of_mem_ofInt hc
    exact .bracket inner .nil

theorem nodeText_number (negative : Bool) (k n : ℕ) :
    NodeText (Exact.signed negative (Digits.pointed k n)) := by
  obtain ⟨d, ds, h, -⟩ := Digits.exists_pointed_eq k n
  exact .signed negative (solid_pointed k n) (by rw [h]; exact List.cons_ne_nil d ds)

theorem nodeText_chars (u : Uniform) : NodeText u.chars :=
  .signed false (solid_chars u) u.chars_ne_nil

theorem Solid.nodeText_append_chars {cs : List Char} (h : Solid cs) (u : Uniform) :
    NodeText (cs ++ u.chars) :=
  .signed false (h.append (solid_chars u)) (List.append_ne_nil_of_right_ne_nil _ u.chars_ne_nil)

end Expression

namespace Pool

/-- **What spells a pool is the text of a node.** -/
theorem Spells.nodeText {p : Pool ℚ} {cs : List Char} (h : p.Spells cs) :
    Expression.NodeText cs := by
  cases h with
  | fixed negative k n => exact Expression.nodeText_number negative k n
  | uniform u => exact Expression.nodeText_chars u
  | @times n hn u => exact (Expression.solid_ofNat n).nodeText_append_chars u
  | @dice w u hok => exact (Expression.solid_chars w).nodeText_append_chars u

end Pool
end DiceFormula
