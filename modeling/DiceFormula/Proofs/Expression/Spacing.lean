/-
# Blanks around operators

Spaces, tabs and line ends may stand at the ends of an expression and around its operators, and
what the expression is read as is the same without them (`Chain.reading_spaced`).  Three layers
have a notion of a blank of their own, and each of them passes over these:

* the ends of the expression are trimmed, which drops more than these;
* the cursor forgets nothing over a blank, so it takes what stands behind for the same
  (`Expression.Cursor.cut_blanks`);
* the segments in front of an operator and behind it get blanks at their ends, which their nodes
  may have (`Pool.ofNode?_spaces`).

Around one operator this is `Chain.reading_operator`.  The text in front of an operator is not
touched by blanks that stand behind it, so several of them are dealt with from the last one to
the first.
-/

import DiceFormula.Proofs.Expression.Akin

namespace DiceFormula

open Expression

variable {α : Type} [Scalar α]

namespace Expression

/-! ### Blanks under a cursor -/

namespace Cursor

/-- **Blanks are added to the segment, and nothing else changes.** -/
theorem cut_blanks {ws : List Char} (hws : ∀ c ∈ ws, isBlank c = true) (k : Cursor)
    (rest : List Char) :
    k.cut (ws ++ rest) = ({ k with node := ws.reverse ++ k.node } : Cursor).cut rest := by
  rw [cut_plain fun c hc => plain_of_isBlank (hws c hc), past, lastVisible_of_isBlank hws,
    Option.none_or]

/-- **Blanks around an operator** leave the segments in front of it and behind it akin. -/
theorem Akin.cut_operator {k k' : Cursor} (h : k.Akin k') {o : Char} {op : Operation}
    (ho : k.cut? o = some op) {ws ws' : List Char} (hws : Token.Spaces ws)
    (hws' : Token.Spaces ws') (rest : List Char) :
    List.Forall₂ Segment.Akin (k.cut (o :: rest)) (k'.cut (ws ++ o :: (ws' ++ rest))) := by
  rw [k'.cut_blanks hws.isBlank]
  -- The cursor behind the blanks in front, and then the one behind those that follow.
  let front : Cursor := { k' with node := ws.reverse ++ k'.node }
  have hcut : front.cut? o = some op := (h.cut? o).trans ho
  show List.Forall₂ _ (k.cut (o :: rest)) (front.cut (o :: (ws' ++ rest)))
  rw [Cursor.cut, Cursor.cut, ho, hcut]
  refine .cons ⟨h.operation, ?_⟩ ?_
  · obtain ⟨before, hbefore, hnode⟩ := h.node
    refine ⟨before, ws, hbefore, hws, ?_⟩
    show (ws.reverse ++ k'.node).reverse.filter inNode = before ++ k.segment.node ++ ws
    rw [List.reverse_append, List.reverse_reverse, List.filter_append,
      filter_inNode_of_isBlank hws.isBlank, ← hnode]
    rfl
  · show List.Forall₂ _ ((k.next op o).cut rest) ((front.next op o).cut (ws' ++ rest))
    rw [cut_blanks hws'.isBlank]
    have hnext : (k.next op o).Akin
        { front.next op o with node := ws'.reverse ++ (front.next op o).node } := by
      refine ⟨rfl, rfl, ⟨ws', hws', ?_⟩, fun _ _ => rfl⟩
      show (ws'.reverse ++ []).reverse.filter inNode = ws' ++ [].reverse.filter inNode
      simp [filter_inNode_of_isBlank hws'.isBlank]
    exact hnext.cut rest

end Cursor

/-- In `ds` stand the characters of `cs` and, around operators at top level, blanks; both
texts follow `before`. -/
inductive Spaced : List Char → List Char → List Char → Prop where
  | nil {before} : Spaced before [] []
  | keep {before cs ds} (c : Char) (h : Spaced (before ++ [c]) cs ds) :
      Spaced before (c :: cs) (c :: ds)
  | around {before cs ds ws ws' o} (ho : Divides before o) (hws : Token.Spaces ws)
      (hws' : Token.Spaces ws') (h : Spaced (before ++ [o]) cs ds) :
      Spaced before (o :: cs) (ws ++ o :: (ws' ++ ds))

end Expression

namespace Chain

/-- **Blanks around one operator do not matter.** -/
theorem reading_operator {before : List Char} {o : Char} (ho : Divides before o)
    {ws ws' : List Char} (hws : Token.Spaces ws) (hws' : Token.Spaces ws') (after : List Char) :
    (reading (String.ofList (before ++ ws ++ o :: (ws' ++ after))) :
        Except ParseError.Kind (Chain α)) =
      reading (String.ofList (before ++ o :: after)) := by
  refine reading_congr ?_ fun _ => ?_
  · have hpasses {vs : List Char} (hvs : Token.Spaces vs) (inside : Bool) :
        ∀ c ∈ vs, Passes inside c :=
      fun c hc => passes_of_isBlank (hvs.isBlank c hc) inside
    rw [String.toList_ofList, String.toList_ofList, balance_insert (hpasses hws _),
      List.append_cons, ← List.append_assoc, balance_insert (hpasses hws' _), ← List.append_cons]
  · obtain ⟨ws₁, hws₁, hfront⟩ := exists_trimStart_append hws.isBlank before
    obtain ⟨ws₂, hws₂, hback⟩ := exists_trimEnd_append hws'.isBlank after
    rw [String.toList_ofList, String.toList_ofList, trim_append_cons ho.isBlank,
      trim_append_cons ho.isBlank, hfront, hback, List.append_assoc (trimStart before)]
    refine (Cursor.akin_begin _ _).cut_append _ ?_
    have hat := (Cursor.at_begin (startOf (before ++ o :: after))).after (trimStart before)
    obtain ⟨op, hop⟩ := Option.isSome_iff_exists.1 (hat.isSome_cut?_iff.2 ho.trimStart)
    exact ((Cursor.akin_begin _ _).after _).cut_operator hop (fun c hc => hws c (hws₁ hc))
      (fun c hc => hws' c (hws₂ hc)) _

/-- Blanks around any operators do not matter, whatever stands in front of these. -/
theorem reading_of_spaced {before cs ds : List Char} (h : Spaced before cs ds) :
    (reading (String.ofList (before ++ ds)) : Except ParseError.Kind (Chain α)) =
      reading (String.ofList (before ++ cs)) := by
  induction h with
  | nil => rfl
  | @keep before cs ds c _ ih => rwa [List.append_cons before c ds, List.append_cons before c cs]
  | around ho hws hws' _ ih =>
    rw [← List.append_assoc, reading_operator ho hws hws', List.append_cons, ih, ← List.append_cons]

/-- **Blanks at the ends of an expression and around its operators do not matter.**  Whether it
is accepted or not, with them it is read as the same chain, or refused for the same kind of
error. -/
theorem reading_spaced {s t : String} {cs ws ws' : List Char} (h : Spaced [] s.toList cs)
    (hws : Token.Spaces ws) (hws' : Token.Spaces ws') (ht : t.toList = ws ++ cs ++ ws') :
    (reading t : Except ParseError.Kind (Chain α)) = reading s := by
  have htrim : trim t.toList = trim cs := by rw [ht, trim_blanks hws.isBlank hws'.isBlank]
  have hends : (reading t : Except ParseError.Kind (Chain α)) = reading (String.ofList cs) := by
    refine reading_congr ?_ fun _ => ?_
    · rw [String.toList_ofList, ← balance_trim, htrim, balance_trim]
    · rw [String.toList_ofList, htrim]
      exact (Cursor.akin_begin _ _).cut _
  have hspaced := reading_of_spaced (α := α) h
  rw [List.nil_append, List.nil_append, String.ofList_toList] at hspaced
  rw [hends, hspaced]

/-- The hypotheses of `reading_spaced` are satisfiable: blanks between a parenthesis and an
operator, between an operator and a sign, and at the ends. -/
theorem reading_spaced_signed :
    Spaced [] "2d6(+-1)".toList "2d6( \t+\r\n-1)".toList ∧
    Token.Spaces [' '] ∧ Token.Spaces ['\n'] ∧
    " 2d6( \t+\r\n-1)\n".toList = [' '] ++ "2d6( \t+\r\n-1)".toList ++ ['\n'] ∧
    (reading " 2d6( \t+\r\n-1)\n" : Except ParseError.Kind (Chain Float)) =
      reading "2d6(+-1)" := by
  have hdivides : Divides ['2', 'd', '6', '('] '+' :=
    ⟨by decide, by decide, by
      rintro ⟨-, hsign⟩
      exact absurd (hsign '(' (by decide)) (by decide)⟩
  have hfront : Token.Spaces [' ', '\t'] :=
    List.forall_mem_cons.2 ⟨rfl, List.forall_mem_singleton.2 rfl⟩
  have hback : Token.Spaces ['\r', '\n'] :=
    List.forall_mem_cons.2 ⟨rfl, List.forall_mem_singleton.2 rfl⟩
  have hspaced : Spaced [] "2d6(+-1)".toList "2d6( \t+\r\n-1)".toList :=
    .keep '2' <| .keep 'd' <| .keep '6' <| .keep '(' <| .around hdivides hfront hback <|
      .keep '-' <| .keep '1' <| .keep ')' .nil
  have hstart : Token.Spaces [' '] := List.forall_mem_singleton.2 rfl
  have hend : Token.Spaces ['\n'] := List.forall_mem_singleton.2 rfl
  have htext : " 2d6( \t+\r\n-1)\n".toList =
      [' '] ++ "2d6( \t+\r\n-1)".toList ++ ['\n'] := by decide
  exact ⟨hspaced, hstart, hend, htext, reading_spaced hspaced hstart hend htext⟩

end Chain
end DiceFormula
