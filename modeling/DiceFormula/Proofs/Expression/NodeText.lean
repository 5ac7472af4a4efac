/-
# The text of a node

The formulas of plain pools are texts of one kind: a minus sign, if there is one, in front
of characters of numbers and dice and of brackets that are closed (`Expression.NodeText`).
Nothing in such a text cuts, it holds no parentheses, it neither begins nor ends with a
blank, and it is balanced.

A text is balanced if it can be walked through wherever no bracket is open, so that the
walk goes on behind it as if it were not there (`Expression.Balanced`).  Texts in a row
are balanced if each of them is, and parentheses around a balanced text are balanced.
-/

import DiceFormula.Expression.Segment
import DiceFormula.Number.Exact
import Mathlib.Tactic.SplitIfs

namespace DiceFormula

/-- The text of a link with the text of its pool. -/
def Operation.linkText (op : Operation) (node : List Char) : List Char :=
  if op.isEach then '(' :: op.symbol :: (node ++ [')']) else op.symbol :: node

namespace Expression

/-- A character of a number or a die. -/
def isInert (c : Char) : Bool := c.isDigit || c == 'd' || c == '.'

/-- The last character of a node, or the parenthesis that closes it. -/
def isClosing (c : Char) : Bool := isInert c || c == ']' || c == ')'

theorem ne_of_isInert {c d : Char} (hc : isInert c = true) (hd : isInert d = false) : c ≠ d := by
  rintro rfl
  rw [hc] at hd
  cases hd

theorem ne_of_isClosing {c d : Char} (hc : isClosing c = true) (hd : isClosing d = false) :
    c ≠ d := by
  rintro rfl
  rw [hc] at hd
  cases hd

theorem not_mem_of_isInert {c : Char} (hc : isInert c = true) : c ∉ ['[', ']', '(', ')'] := by
  simp only [List.mem_cons, List.not_mem_nil, or_false, not_or]
  exact ⟨ne_of_isInert hc rfl, ne_of_isInert hc rfl, ne_of_isInert hc rfl, ne_of_isInert hc rfl⟩

theorem isBlank_of_isInert {c : Char} (hc : isInert c = true) : isBlank c = false := by
  rw [isInert, Bool.or_eq_true, Bool.or_eq_true, beq_iff_eq, beq_iff_eq] at hc
  rcases hc with (hc | rfl) | rfl
  · obtain ⟨hlow, hhigh⟩ := Char.isDigit_iff_toNat.1 hc
    rw [show '0'.toNat = 48 from rfl] at hlow
    rw [show '9'.toNat = 57 from rfl] at hhigh
    simp only [isBlank, Bool.or_eq_false_iff, Bool.and_eq_false_iff, decide_eq_false_iff_not,
      beq_eq_false_iff_ne]
    omega
  · rfl
  · rfl

/-- A text without operators: characters of numbers and dice, and brackets that hold
neither brackets nor parentheses. -/
inductive Solid : List Char → Prop where
  | nil : Solid []
  | inert {c cs} (hc : isInert c = true) (hcs : Solid cs) : Solid (c :: cs)
  | bracket {inner cs} (hi : ∀ c ∈ inner, c ∉ ['[', ']', '(', ')']) (hcs : Solid cs) :
      Solid ('[' :: (inner ++ ']' :: cs))

theorem Solid.append {cs ds : List Char} (hcs : Solid cs) (hds : Solid ds) : Solid (cs ++ ds) := by
  induction hcs with
  | nil => exact hds
  | inert hc _ ih => exact .inert hc ih
  | bracket hi _ ih =>
    rw [List.cons_append, List.append_assoc, List.cons_append]
    exact .bracket hi ih

/-- The text of a node: it may begin with a minus sign. -/
inductive NodeText : List Char → Prop where
  | signed (negative : Bool) {cs} (h : Solid cs) (hne : cs ≠ []) :
      NodeText (Exact.signed negative cs)

theorem Solid.exists_cons {cs : List Char} (h : Solid cs) (hne : cs ≠ []) :
    ∃ c ds, cs = c :: ds ∧ isBlank c = false := by
  cases h with
  | nil => exact absurd rfl hne
  | inert hc _ => exact ⟨_, _, rfl, isBlank_of_isInert hc⟩
  | bracket _ _ => exact ⟨_, _, rfl, rfl⟩

theorem Solid.exists_concat {cs : List Char} (h : Solid cs) (hne : cs ≠ []) :
    ∃ ds c, cs = ds ++ [c] ∧ isBlank c = false := by
  induction h with
  | nil => exact absurd rfl hne
  | @inert c cs hc hcs ih =>
    by_cases hnil : cs = []
    · exact ⟨[], c, by rw [hnil]; rfl, isBlank_of_isInert hc⟩
    · obtain ⟨ds, d, h, hd⟩ := ih hnil
      exact ⟨c :: ds, d, by rw [h]; rfl, hd⟩
  | @bracket inner cs hi hcs ih =>
    by_cases hnil : cs = []
    · exact ⟨'[' :: inner, ']', by rw [hnil]; rfl, rfl⟩
    · obtain ⟨ds, d, h, hd⟩ := ih hnil
      refine ⟨'[' :: (inner ++ ']' :: ds), d, ?_, hd⟩
      rw [h, List.cons_append, List.append_assoc, List.cons_append]

/-- The text of a node begins with no blank. -/
theorem NodeText.exists_cons {cs : List Char} (h : NodeText cs) :
    ∃ c ds, cs = c :: ds ∧ isBlank c = false := by
  obtain ⟨negative, h, hne⟩ := h
  cases negative with
  | false => exact h.exists_cons hne
  | true => exact ⟨_, _, rfl, rfl⟩

/-- The text of a node ends with no blank. -/
theorem NodeText.exists_concat {cs : List Char} (h : NodeText cs) :
    ∃ ds c, cs = ds ++ [c] ∧ isBlank c = false := by
  obtain ⟨negative, h, hne⟩ := h
  obtain ⟨ds, c, rfl, hc⟩ := h.exists_concat hne
  exact ⟨Exact.signed negative ds, c, by cases negative <;> rfl, hc⟩

/-- A character that belongs to the node of a segment. -/
def inNode (c : Char) : Bool := c != '(' && c != ')'

theorem inNode_iff {c : Char} : inNode c = true ↔ c ≠ '(' ∧ c ≠ ')' := by
  rw [inNode, Bool.and_eq_true, bne_iff_ne, bne_iff_ne]

theorem Solid.inNode {cs : List Char} (h : Solid cs) : ∀ c ∈ cs, inNode c = true := by
  induction h with
  | nil => simp
  | inert hc _ ih =>
    exact List.forall_mem_cons.2 ⟨inNode_iff.2 ⟨ne_of_isInert hc rfl, ne_of_isInert hc rfl⟩, ih⟩
  | @bracket inner cs hi _ ih =>
    intro c hc
    rw [List.mem_cons, List.mem_append, List.mem_cons] at hc
    rcases hc with rfl | hc | rfl | hc
    · rfl
    · have hne := hi c hc
      simp only [List.mem_cons, List.not_mem_nil, or_false, not_or] at hne
      exact inNode_iff.2 hne.2.2
    · rfl
    · exact ih c hc

/-- The text of a node holds no parentheses. -/
theorem NodeText.filter_eq {cs : List Char} (h : NodeText cs) : cs.filter inNode = cs := by
  obtain ⟨negative, h, -⟩ := h
  rw [List.filter_eq_self]
  cases negative with
  | false => exact h.inNode
  | true => exact List.forall_mem_cons.2 ⟨rfl, h.inNode⟩

/-! ### Balance -/

/-- A text that can be walked through wherever no bracket is open. -/
def Balanced (cs : List Char) : Prop :=
  ∀ parens position, ∃ next, ∀ rest,
    checkBalance none parens position (cs ++ rest) = checkBalance none parens next rest

theorem Balanced.nil : Balanced [] := fun _ position => ⟨position, fun _ => rfl⟩

theorem Balanced.append {cs ds : List Char} (hcs : Balanced cs) (hds : Balanced ds) :
    Balanced (cs ++ ds) := by
  intro parens position
  obtain ⟨middle, hcs⟩ := hcs parens position
  obtain ⟨next, hds⟩ := hds parens middle
  refine ⟨next, fun rest => ?_⟩
  rw [List.append_assoc, hcs, hds]

theorem Balanced.single {c : Char} (hc : c ∉ ['[', ']', '(', ')']) : Balanced [c] := by
  intro parens position
  simp only [List.mem_cons, List.not_mem_nil, or_false, not_or] at hc
  obtain ⟨h₁, h₂, h₃, h₄⟩ := hc
  refine ⟨position + c.utf8Size, fun rest => ?_⟩
  cases parens <;>
    rw [List.singleton_append, checkBalance, if_neg h₁, if_neg h₂, if_neg h₃, if_neg h₄]

theorem Balanced.parens {cs : List Char} (hcs : Balanced cs) :
    Balanced ('(' :: (cs ++ [')'])) := by
  intro parens position
  obtain ⟨next, hcs⟩ := hcs (position :: parens) (position + '('.utf8Size)
  refine ⟨next + ')'.utf8Size, fun rest => ?_⟩
  have hopen : ∀ text, checkBalance none parens position ('(' :: text) =
      checkBalance none (position :: parens) (position + '('.utf8Size) text := by
    intro text
    cases parens <;> rfl
  rw [List.cons_append, List.append_assoc, hopen, hcs]
  rfl

theorem checkBalance_inside {inner : List Char} (hi : ∀ c ∈ inner, c ∉ ['[', ']', '(', ')'])
    (i : Nat) (parens : List Nat) (position : Nat) (rest : List Char) :
    checkBalance (some i) parens position (inner ++ rest) =
      checkBalance (some i) parens (position + byteLength inner) rest := by
  induction inner generalizing position with
  | nil => rfl
  | cons c inner ih =>
    obtain ⟨hc, hi⟩ := List.forall_mem_cons.1 hi
    simp only [List.mem_cons, List.not_mem_nil, or_false, not_or] at hc
    rw [List.cons_append, checkBalance, if_neg hc.1, if_neg hc.2.1, ih hi, byteLength_cons,
      Nat.add_assoc]

theorem Balanced.bracket {inner : List Char} (hi : ∀ c ∈ inner, c ∉ ['[', ']', '(', ')']) :
    Balanced ('[' :: (inner ++ [']'])) := by
  intro parens position
  have hopen : ∀ text, checkBalance none parens position ('[' :: text) =
      checkBalance (some position) parens (position + '['.utf8Size) text := by
    intro text
    cases parens <;> rfl
  refine ⟨position + '['.utf8Size + byteLength inner + ']'.utf8Size, fun rest => ?_⟩
  rw [List.cons_append, List.append_assoc, hopen, checkBalance_inside hi]
  rfl

theorem Solid.balanced {cs : List Char} (h : Solid cs) : Balanced cs := by
  induction h with
  | nil => exact .nil
  | @inert c cs hc _ ih =>
    exact (Balanced.single (not_mem_of_isInert hc)).append ih
  | @bracket inner cs hi _ ih =>
    have h := (Balanced.bracket hi).append ih
    rwa [List.cons_append, List.append_assoc, List.singleton_append] at h

theorem NodeText.balanced {cs : List Char} (h : NodeText cs) : Balanced cs := by
  obtain ⟨negative, h, -⟩ := h
  cases negative with
  | false => exact h.balanced
  | true => exact (Balanced.single (by decide)).append h.balanced

end Expression
end DiceFormula
