/-
# Cutting what is written

A cursor walks through an expression and cuts it at its operators.  What it does on a
piece of text is a judgement of its own: `Cursor.Reads k cs ss k'` says that from `k`
it cuts off the segments `ss` while it reads `cs`, and is at `k'` then.  Judgements
about pieces in a row join (`Cursor.Reads.append`), so a written chain is followed link
by link.

The state between two links is one of two.  Behind an operator the cursor is *fresh*: a
minus sign that comes next is a sign.  Behind a node it is *done*: the character in front
is none that makes a sign of an operator, so an operator cuts, and what it cuts off is
the node, whatever parentheses stand around it.

| text | from | to | cuts off |
| --- | --- | --- | --- |
| a node | fresh | done | nothing |
| an operator | done | fresh | the node |
| `(` and an operator | done | fresh, in the each variant if there is one | the node |
-/

import DiceFormula.Proofs.Expression.NodeText

namespace DiceFormula
namespace Expression

namespace Cursor

/-- Reading `cs` from `k` cuts off the segments `ss` and leads to `k'`. -/
def Reads (k : Cursor) (cs : List Char) (ss : List Segment) (k' : Cursor) : Prop :=
  ∀ rest, k.cut (cs ++ rest) = ss ++ k'.cut rest

namespace Reads

variable {k k' k'' : Cursor} {cs ds : List Char} {ss ts : List Segment}

theorem nil (k : Cursor) : k.Reads [] [] k := fun _ => rfl

theorem append (h : k.Reads cs ss k') (h' : k'.Reads ds ts k'') :
    k.Reads (cs ++ ds) (ss ++ ts) k'' := by
  intro rest
  rw [List.append_assoc, h, h', List.append_assoc]

theorem keep {c : Char} (h : k.cut? c = none) : k.Reads [c] [] (k.keep c) := by
  intro rest
  rw [List.singleton_append, cut, h]
  rfl

theorem next {c : Char} {op : Operation} (h : k.cut? c = some op) :
    k.Reads [c] [k.segment] (k.next op c) := by
  intro rest
  rw [List.singleton_append, cut, h]
  rfl

end Reads

theorem cut?_outside {k : Cursor} (hk : k.inside = false) (c : Char) :
    k.cut? c = cutAt? k.previous c := by
  rw [cut?, hk]
  rfl

theorem insideAfter_outside {k : Cursor} (hk : k.inside = false) (c : Char) :
    k.insideAfter c = (c == '[') := by
  rw [insideAfter, hk]
  rfl

theorem insideAfter_inside {k : Cursor} (hk : k.inside = true) (c : Char) :
    k.insideAfter c = (c != ']') := if_pos hk

/-- A character that is no operator does not cut. -/
theorem reads_keep {k : Cursor} (hk : k.inside = false) {c : Char}
    (hc : Operation.ofSymbol? c = none) : k.Reads [c] [] (k.keep c) := by
  refine .keep ?_
  rw [cut?_outside hk, cutAt?, hc, Option.map_none, ite_self]

/-- The last character that is not blank ends a node. -/
def Closed (k : Cursor) : Prop := ∃ p, k.previous = some p ∧ isClosing p = true

/-- Reading `cs` from `k` only adds to the segment, and ends outside of brackets at `k'`. -/
structure Keeps (k : Cursor) (cs : List Char) (k' : Cursor) : Prop where
  reads : k.Reads cs [] k'
  outside : k'.inside = false
  operation : k'.operation = k.operation
  node : k'.node = cs.reverse ++ k.node
  closed : k.Closed ∨ cs ≠ [] → k'.Closed

theorem Keeps.append {k k' k'' : Cursor} {cs ds : List Char} (h : k.Keeps cs k')
    (h' : k'.Keeps ds k'') : k.Keeps (cs ++ ds) k'' where
  reads := h.reads.append h'.reads
  outside := h'.outside
  operation := h'.operation.trans h.operation
  node := by rw [h'.node, h.node, List.reverse_append, List.append_assoc]
  closed hk := by
    by_cases hds : ds = []
    · refine h'.closed (.inl (h.closed (hk.imp_right fun hne => ?_)))
      rwa [hds, List.append_nil] at hne
    · exact h'.closed (.inr hds)

theorem keeps_nil {k : Cursor} (hk : k.inside = false) : k.Keeps [] k :=
  ⟨.nil k, hk, rfl, rfl, fun h => h.resolve_right fun hne => hne rfl⟩

theorem keeps_inert {k : Cursor} (hk : k.inside = false) {c : Char} (hc : isInert c = true) :
    k.Keeps [c] (k.keep c) := by
  have hsymbol : Operation.ofSymbol? c = none := by
    rw [Operation.ofSymbol?]
    all_goals exact ne_of_isInert hc rfl
  refine ⟨reads_keep hk hsymbol, ?_, rfl, rfl, fun _ => ⟨c, ?_, ?_⟩⟩
  · rw [keep, insideAfter_outside hk]
    exact beq_false_of_ne (ne_of_isInert hc rfl)
  · rw [keep, previousAfter, isBlank_of_isInert hc]
    rfl
  · rw [isClosing, hc]
    rfl

theorem exists_reads_inside {inner : List Char} (hi : ∀ c ∈ inner, c ∉ ['[', ']', '(', ')']) :
    ∀ k : Cursor, k.inside = true → ∃ k' : Cursor, k.Reads inner [] k' ∧ k'.inside = true ∧
      k'.operation = k.operation ∧ k'.node = inner.reverse ++ k.node := by
  induction inner with
  | nil => exact fun k hk => ⟨k, .nil k, hk, rfl, rfl⟩
  | cons c inner ih =>
    intro k hk
    obtain ⟨hc, hi⟩ := List.forall_mem_cons.1 hi
    have hne : c ≠ ']' := by
      rintro rfl
      exact hc (by decide)
    have hinside : (k.keep c).inside = true := by
      rw [keep, insideAfter_inside hk]
      exact bne_iff_ne.2 hne
    obtain ⟨k', hreads, hk', hop, hnode⟩ := ih hi (k.keep c) hinside
    have hcut : k.cut? c = none := if_pos hk
    refine ⟨k', (Reads.keep hcut).append hreads, hk', hop, ?_⟩
    rw [hnode, List.reverse_cons, List.append_assoc]
    rfl

theorem exists_keeps_bracket {k : Cursor} (hk : k.inside = false) {inner : List Char}
    (hi : ∀ c ∈ inner, c ∉ ['[', ']', '(', ')']) :
    ∃ k', k.Keeps ('[' :: (inner ++ [']'])) k' := by
  have hopen : k.Reads ['['] [] (k.keep '[') := reads_keep hk rfl
  have hinside : (k.keep '[').inside = true := by
    rw [keep, insideAfter_outside hk]
    rfl
  obtain ⟨k', hreads, hk', hop, hnode⟩ := exists_reads_inside hi (k.keep '[') hinside
  have hclose : k'.Reads [']'] [] (k'.keep ']') := .keep (if_pos hk')
  refine ⟨k'.keep ']', hopen.append (hreads.append hclose), ?_, hop, ?_, fun _ => ⟨']', rfl, rfl⟩⟩
  · rw [keep, insideAfter_inside hk']
    rfl
  · rw [keep, hnode, keep, List.reverse_cons, List.reverse_append, List.append_assoc]
    rfl

theorem exists_keeps_solid {cs : List Char} (h : Solid cs) :
    ∀ k : Cursor, k.inside = false → ∃ k', k.Keeps cs k' := by
  induction h with
  | nil => exact fun k hk => ⟨k, keeps_nil hk⟩
  | inert hc _ ih =>
    intro k hk
    have first := keeps_inert hk hc
    obtain ⟨k', hk'⟩ := ih _ first.outside
    exact ⟨k', first.append hk'⟩
  | bracket hi _ ih =>
    intro k hk
    obtain ⟨k', first⟩ := exists_keeps_bracket hk hi
    obtain ⟨k'', hk''⟩ := ih k' first.outside
    refine ⟨k'', ?_⟩
    have h := first.append hk''
    rwa [List.cons_append, List.append_assoc, List.singleton_append] at h

/-- Behind an operator, or at the start. -/
structure Fresh (k : Cursor) (op : Operation) : Prop where
  outside : k.inside = false
  operation : k.operation = op
  node : k.node = []
  sign : isSign k.previous '-' = true

/-- Behind a node and maybe the parenthesis that closes it. -/
structure Done (k : Cursor) (op : Operation) (node : List Char) : Prop where
  outside : k.inside = false
  operation : k.operation = op
  node : k.segment.node = node
  closed : k.Closed

theorem fresh_begin (start : Nat) : (begin start).Fresh .plus := ⟨rfl, rfl, rfl, rfl⟩

theorem Fresh.exists_reads_node {k : Cursor} {op : Operation} (hk : k.Fresh op) {cs : List Char}
    (h : NodeText cs) : ∃ k', k.Reads cs [] k' ∧ k'.Done op cs := by
  have hnode := h.filter_eq
  obtain ⟨negative, h, hne⟩ := h
  cases negative with
  | false =>
    obtain ⟨k', hk'⟩ := exists_keeps_solid h k hk.outside
    refine ⟨k', hk'.reads, hk'.outside, hk'.operation.trans hk.operation, ?_, hk'.closed (.inr hne)⟩
    rw [segment, Segment.node, hk'.node, hk.node, List.append_nil, List.reverse_reverse]
    exact hnode
  | true =>
    have hsign : k.Reads ['-'] [] (k.keep '-') :=
      .keep (by rw [cut?_outside hk.outside, cutAt?, if_pos hk.sign])
    have hinside : (k.keep '-').inside = false := by
      rw [keep, insideAfter_outside hk.outside]
      rfl
    obtain ⟨k', hk'⟩ := exists_keeps_solid h (k.keep '-') hinside
    refine ⟨k', hsign.append hk'.reads, hk'.outside, hk'.operation.trans hk.operation, ?_,
      hk'.closed (.inr hne)⟩
    rw [segment, Segment.node, hk'.node, keep, hk.node, List.reverse_append, List.reverse_reverse]
    exact hnode

/-- A parenthesis is kept, and is no part of the node. -/
theorem node_keep (k : Cursor) {c : Char} (hc : inNode c = false) :
    (k.keep c).segment.node = k.segment.node := by
  show (c :: k.node).reverse.filter inNode = k.node.reverse.filter inNode
  rw [List.reverse_cons, List.filter_append,
    List.filter_cons_of_neg (by rw [hc]; exact Bool.false_ne_true), List.filter_nil,
    List.append_nil]

namespace Done

variable {k : Cursor} {op : Operation} {node : List Char}

/-- Behind a node an operator cuts. -/
theorem cutAt?_symbol {p : Char} (hp : isClosing p = true) {op : Operation}
    (h : op.isEach = false) : cutAt? (some p) op.symbol = some op := by
  have hsign : isSign (some p) op.symbol = false := by
    rw [isSign, Bool.and_eq_false_iff]
    right
    simp only [Bool.or_eq_false_iff, beq_eq_false_iff_ne]
    exact ⟨⟨⟨⟨⟨ne_of_isClosing hp rfl, ne_of_isClosing hp rfl⟩, ne_of_isClosing hp rfl⟩,
      ne_of_isClosing hp rfl⟩, ne_of_isClosing hp rfl⟩, ne_of_isClosing hp rfl⟩
  have hparen : some p ≠ some '(' := by
    rintro ⟨⟩
    cases hp
  rw [cutAt?, hsign, if_neg Bool.false_ne_true, Operation.ofSymbol?_symbol op h, Option.map_some,
    if_neg hparen]

theorem fresh_next (k : Cursor) (op : Operation) : (k.next op op.symbol).Fresh op :=
  ⟨rfl, rfl, rfl, by cases op <;> rfl⟩

/-- **An operator behind a node cuts off the node.** -/
theorem exists_reads_operator (hk : k.Done op node) {op' : Operation} (h : op'.isEach = false) :
    ∃ s k', k.Reads [op'.symbol] [s] k' ∧ (s.operation = op ∧ s.node = node) ∧ k'.Fresh op' := by
  obtain ⟨p, hp, hclosing⟩ := hk.closed
  have hcut : k.cut? op'.symbol = some op' := by
    rw [cut?_outside hk.outside, hp, cutAt?_symbol hclosing h]
  exact ⟨k.segment, _, .next hcut, ⟨hk.operation, hk.node⟩, fresh_next k op'⟩

/-- **So does one in parentheses,** in its each variant if it has one. -/
theorem exists_reads_parens (hk : k.Done op node) {op' : Operation} (h : op'.isEach = false) :
    ∃ s k', k.Reads ['(', op'.symbol] [s] k' ∧ (s.operation = op ∧ s.node = node) ∧
      k'.Fresh (op'.toEach?.getD op') := by
  have hopen : k.Reads ['('] [] (k.keep '(') := reads_keep hk.outside rfl
  have hinside : (k.keep '(').inside = false := by
    rw [keep, insideAfter_outside hk.outside]
    rfl
  have hcut : (k.keep '(').cut? op'.symbol = some (op'.toEach?.getD op') := by
    rw [cut?_outside hinside]
    cases op' with
    | plus | minus | multiply | divide => rfl
    | eachPlus | eachMinus => cases h
  have hnode : (k.keep '(').segment.node = node := (k.node_keep rfl).trans hk.node
  refine ⟨(k.keep '(').segment, _, hopen.append (.next hcut), ⟨hk.operation, hnode⟩, ?_⟩
  exact ⟨rfl, rfl, rfl, by cases op' <;> rfl⟩

end Done

end Cursor

end Expression
end DiceFormula
