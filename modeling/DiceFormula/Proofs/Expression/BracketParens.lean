/-
# Parentheses inside of brackets

The walk through an expression passes over whatever stands inside of brackets, and the nodes of
its segments are without parentheses, wherever these stood.  So the parentheses outside of
brackets are balanced in what is accepted, while those inside do not count at all: an expression
reads like any other that differs from it in these alone (`Chain.reading_outer`).

They need not be balanced, then.  `[1),2]` is accepted, and rolls one or two
(`Chain.not_parensBalanced_of_parse`).
-/

import DiceFormula.Proofs.Expression.Akin
import DiceFormula.Proofs.Roll.Outcome

namespace DiceFormula

variable {α : Type} [Scalar α]

namespace Expression

/-- In front of every character at least as many parentheses open as close, and in the whole text
just as many. -/
structure ParensBalanced (cs : List Char) : Prop where
  front : ∀ front, front <+: cs → front.count ')' ≤ front.count '('
  total : cs.count ')' = cs.count '('

/-- A text without the parentheses inside of its brackets.  Whether the text begins inside of a
bracket is told by `inside`. -/
def outer (inside : Bool) : List Char → List Char
  | [] => []
  | c :: cs => if inside && !inNode c then outer inside cs else c :: outer (insideOf inside c) cs

/-- **A character is left out exactly if it is a parenthesis inside of a bracket.** -/
theorem outer_cons (inside : Bool) (c : Char) (cs : List Char) :
    inside = true ∧ inNode c = false ∧ outer inside (c :: cs) = outer true cs ∨
    (inside = true → inNode c = true) ∧
      outer inside (c :: cs) = c :: outer (insideOf inside c) cs := by
  cases inside <;> cases hc : inNode c <;> simp [outer, hc]

theorem outer_append_blanks {ws : List Char} (hws : ∀ c ∈ ws, isBlank c = true) (inside : Bool)
    (cs : List Char) : outer inside (ws ++ cs) = ws ++ outer inside cs := by
  induction ws with
  | nil => rfl
  | cons c ws ih =>
    obtain ⟨hc, hws⟩ := List.forall_mem_cons.1 hws
    obtain ⟨hbracket, hparen⟩ := passes_of_isBlank hc false
    rw [List.cons_append, outer, hparen rfl, insideOf_of_isBracket hbracket, ih hws]
    simp

theorem outer_concat_blanks {ws : List Char} (hws : ∀ c ∈ ws, isBlank c = true) (inside : Bool)
    (cs : List Char) : outer inside (cs ++ ws) = outer inside cs ++ ws := by
  induction cs generalizing inside with
  | nil =>
    have h := outer_append_blanks hws inside []
    rwa [List.append_nil, outer, List.append_nil] at h
  | cons c cs ih =>
    rw [List.cons_append, outer, outer]
    split_ifs
    · exact ih inside
    · rw [ih, List.cons_append]

/-! ### Balance -/

theorem balance_paren {c : Char} (hc : inNode c = false) (depth : Nat) (cs : List Char) :
    balance true depth (c :: cs) = balance true depth cs := by
  have hpasses : ∀ d ∈ [c], Passes true d :=
    List.forall_mem_singleton.2 ⟨(plain_of_paren hc).bracket, by rintro ⟨⟩⟩
  exact balance_passes hpasses depth cs

/-- Parentheses inside of brackets do not count for the balance. -/
theorem balance_outer (cs : List Char) (inside : Bool) (depth : Nat) :
    balance inside depth (outer inside cs) = balance inside depth cs := by
  induction cs generalizing inside depth with
  | nil => rfl
  | cons c cs ih =>
    rcases outer_cons inside c cs with ⟨rfl, hc, hcs⟩ | ⟨-, hcs⟩
    · rw [hcs, ih, balance_paren hc]
    · rw [hcs]
      exact balance_cons_congr (ih _) depth

/-- A character that is not left out opens and closes as many parentheses as it should. -/
theorem exists_balance_of_cons {inside : Bool} {depth : Nat} {c : Char} {cs : List Char}
    (hc : inside = true → inNode c = true) (h : balance inside depth (c :: cs) = .ok ()) :
    ∃ depth', balance (insideOf inside c) depth' cs = .ok () ∧
      [c].count '(' + depth = [c].count ')' + depth' := by
  rw [balance] at h
  cases inside with
  | true =>
    obtain ⟨h₃, h₄⟩ := inNode_iff.1 (hc rfl)
    rw [if_pos rfl] at h
    split_ifs at h
    exact ⟨depth, h, by simp [h₃, h₄]⟩
  | false =>
    rw [if_neg Bool.false_ne_true] at h
    rw [insideOf, if_neg Bool.false_ne_true]
    split_ifs at h with h₁ h₂ h₃ h₄ h₅
    · subst h₁
      exact ⟨depth, h, by simp⟩
    · subst h₃
      exact ⟨depth + 1, h, by simp [Nat.add_comm]⟩
    · subst h₄
      exact ⟨depth - 1, h, by simp; omega⟩
    · rw [beq_false_of_ne h₁]
      exact ⟨depth, h, by simp [h₃, h₄]⟩

/-- **The other parentheses are balanced** if the text is, behind so many of them that are open. -/
theorem count_outer_of_balance {cs : List Char} {inside : Bool} {depth : Nat}
    (h : balance inside depth cs = .ok ()) :
    (∀ front, front <+: outer inside cs → front.count ')' ≤ front.count '(' + depth) ∧
      (outer inside cs).count ')' = (outer inside cs).count '(' + depth := by
  induction cs generalizing inside depth with
  | nil =>
    rw [balance] at h
    split_ifs at h with h₁ h₂
    rw [outer, h₂]
    exact ⟨fun front hfront => by simp [List.prefix_nil.1 hfront], rfl⟩
  | cons c cs ih =>
    rcases outer_cons inside c cs with ⟨rfl, hc, hcs⟩ | ⟨hc, hcs⟩
    · rw [balance_paren hc] at h
      rw [hcs]
      exact ih h
    · obtain ⟨depth', hrest, hdepth⟩ := exists_balance_of_cons hc h
      obtain ⟨hfront, htotal⟩ := ih hrest
      have hcount (d : Char) (ds : List Char) : (c :: ds).count d = [c].count d + ds.count d := by
        rw [← List.singleton_append, List.count_append]
      rw [hcs, hcount ')', hcount '(']
      refine ⟨fun front hprefix => ?_, by omega⟩
      rcases List.prefix_cons_iff.1 hprefix with rfl | ⟨ds, rfl, hds⟩
      · simp
      · have hle := hfront ds hds
        rw [hcount ')', hcount '(']
        omega

/-- A text that leaves no bracket open ends as it does without those parentheses. -/
theorem getLast?_outer {cs : List Char} {inside : Bool} {depth : Nat}
    (h : balance inside depth cs = .ok ()) : (outer inside cs).getLast? = cs.getLast? := by
  induction cs generalizing inside depth with
  | nil => rfl
  | cons c cs ih =>
    rcases outer_cons inside c cs with ⟨rfl, hc, hcs⟩ | ⟨hc, hcs⟩
    · rw [balance_paren hc] at h
      rw [hcs, ih h]
      cases cs with
      | nil => cases h
      | cons d cs => exact (List.getLast?_cons_cons).symm
    · obtain ⟨depth', hrest, -⟩ := exists_balance_of_cons hc h
      rw [hcs, List.getLast?_cons, List.getLast?_cons, ih hrest]

theorem trim_outer {cs : List Char} (h : balance false 0 cs = .ok ()) :
    trim (outer false cs) = outer false (trim cs) := by
  -- What is trimmed off is the same, and then the first character and the last are not blank.
  obtain ⟨ws, ws', hws, hws', hcs⟩ := exists_eq_trim_append_blanks cs
  have htrim : trim (trim cs) = trim cs := by
    conv_rhs => rw [hcs, trim_blanks hws hws']
  obtain ⟨hhead, hlast⟩ := trim_eq_self_iff.1 htrim
  conv_lhs => rw [hcs, outer_concat_blanks hws', outer_append_blanks hws, trim_blanks hws hws']
  rw [trim_eq_self_iff, getLast?_outer (by rwa [balance_trim])]
  refine ⟨?_, hlast⟩
  cases htext : trim cs with
  | nil => rintro _ ⟨⟩
  | cons c rest =>
    rw [htext] at hhead
    exact hhead

/-! ### Segments -/

/-- A character that cuts stands outside of brackets, and is none. -/
theorem Cursor.outside_of_cut? {k : Cursor} {c : Char} {op : Operation} (h : k.cut? c = some op) :
    k.inside = false ∧ isBracket c = false := by
  constructor
  · by_contra hinside
    rw [cut?, if_pos (Bool.not_eq_false _ ▸ hinside)] at h
    cases h
  · obtain ⟨op', hop⟩ := exists_ofSymbol?_of_cut? h
    have hoperator := Operation.isSome_ofSymbol?_iff.1 (Option.isSome_iff_exists.2 ⟨op', hop⟩)
    simp only [List.mem_cons, List.not_mem_nil, or_false] at hoperator
    rcases hoperator with rfl | rfl | rfl | rfl <;> rfl

/-- **What is cut off has the same nodes** without the parentheses inside of brackets. -/
theorem Cursor.Akin.cut_outer {k k' : Cursor} (h : k.Akin k') (cs : List Char) :
    List.Forall₂ Segment.Akin (k.cut cs) (k'.cut (outer k.inside cs)) := by
  induction cs generalizing k k' with
  | nil => exact .cons h.segment .nil
  | cons c cs ih =>
    rcases outer_cons k.inside c cs with ⟨hinside, hc, hcs⟩ | ⟨-, hcs⟩
    · have hkeep : (k.keep c).inside = true := by
        show insideOf k.inside c = true
        rw [insideOf_of_isBracket ((plain_of_paren hc).bracket), hinside]
      have hskip : (k.keep c).Akin k' := by
        obtain ⟨before, hbefore, hnode⟩ := h.node
        refine ⟨by rw [h.inside, hinside, hkeep], h.operation, ⟨before, hbefore, ?_⟩, ?_⟩
        · rw [segment_node_keep, List.filter_singleton, hc, hnode]
          simp
        · rintro hout
          rw [hkeep] at hout
          cases hout
      have hcut : k.cut? c = none := if_pos hinside
      have hrest := ih hskip
      rw [hkeep] at hrest
      rw [hcs, Cursor.cut, hcut]
      exact hrest
    · rw [hcs, Cursor.cut, Cursor.cut, h.cut? c]
      split
      · rename_i op hcut
        obtain ⟨hout, hbracket⟩ := outside_of_cut? hcut
        have hout : insideOf k.inside c = false := by
          rw [insideOf_of_isBracket hbracket, hout]
        rw [hout]
        exact .cons h.segment (ih (k := k.next op c) (.next k k' op c))
      · exact ih (k := k.keep c) (h.keep c)

end Expression

namespace Chain

open Expression

/-- **An expression reads the same without the parentheses inside of its brackets.** -/
theorem reading_outer (s : String) :
    (reading (String.ofList (outer false s.toList)) : Except ParseError.Kind (Chain α)) =
      reading s := by
  refine reading_congr ?_ fun hbalance => ?_
  · rw [String.toList_ofList, balance_outer]
  · rw [String.toList_ofList, trim_outer hbalance]
    exact (Cursor.akin_begin _ _).cut_outer _

/-- **Of what is accepted, the parentheses outside of brackets are balanced,** and no others
matter: an expression that differs in parentheses inside of brackets alone is accepted too, and
is read as the same chain. -/
theorem parse_outer {s : String} {c : Chain α} (h : parse s = .ok c) :
    ParensBalanced (outer false s.toList) ∧
    ∀ t : String, outer false t.toList = outer false s.toList → parse t = .ok c := by
  obtain ⟨ss, ls, hsplit, -, -⟩ := parse_eq_ok_iff.1 h
  obtain ⟨hbalance, -⟩ := split_eq_ok_iff_balance.1 hsplit
  obtain ⟨hfront, htotal⟩ := count_outer_of_balance hbalance
  refine ⟨⟨hfront, htotal⟩, fun t ht => ?_⟩
  rw [← reading_eq_ok_iff, ← reading_outer, ht, reading_outer, reading_eq_ok_iff, h]

/-- The hypotheses of `parse_outer` are satisfiable: parentheses inside of a bracket that are not
balanced, and some outside of it that are. -/
theorem parse_outer_interval :
    ∃ c : Chain Float, parse "([1,2](+1))" = .ok c ∧
      ParensBalanced (outer false "([1,2](+1))".toList) ∧
      outer false "([)1,((2](+1))".toList = outer false "([1,2](+1))".toList ∧
      parse "([)1,((2](+1))" = .ok c := by
  have hread : (parse (α := Float) "([1,2](+1))").toOption.isSome = true := by decide +kernel
  obtain ⟨c, hc⟩ := Option.isSome_iff_exists.1 hread
  rw [toOption_eq_some_iff] at hc
  obtain ⟨hbalanced, hsame⟩ := parse_outer hc
  have houter : outer false "([)1,((2](+1))".toList = outer false "([1,2](+1))".toList := by decide
  exact ⟨c, hc, hbalanced, houter, hsame _ houter⟩

/-- **A parenthesis inside of a bracket need not be paired.**  It closes what was never opened, and
the interval around it is read as if it were not there. -/
theorem not_parensBalanced_of_parse :
    ∃ c : Chain Float, parse "[1),2]" = .ok c ∧ parse "[1,2]" = .ok c ∧
      ¬ ParensBalanced "[1),2]".toList := by
  have hread : (parse (α := Float) "[1,2]").toOption.isSome = true := by decide +kernel
  obtain ⟨c, hc⟩ := Option.isSome_iff_exists.1 hread
  rw [toOption_eq_some_iff] at hc
  have houter : outer false "[1),2]".toList = outer false "[1,2]".toList := by decide
  refine ⟨c, ?_, hc, fun h => absurd h.total (by decide)⟩
  rw [← reading_eq_ok_iff, ← reading_outer, houter, reading_outer, reading_eq_ok_iff, hc]

end Chain
end DiceFormula
