/-
# Joined expressions

Expressions are joined by writing an operator between them.  What is read then is the chain
of the first, extended by the links of the second, the first of which takes the operation of
the operator (`Chain.parse_append`); with parentheses around the operator and the second
expression it takes the each variant, if there is one.

The first expression is cut as it is cut alone: it leaves the cursor behind a character that
makes no sign of the operator (`Cursor.closed_after`).  The second is cut as it is cut alone
because the cursor behind an operator is like one at the start of a text (`Cursor.Alike`):
there too a plus or a minus is a sign.  The places of the segments differ, but what they
denote does not depend on them (`Segment.content`).
-/

import DiceFormula.Proofs.Expression.Acceptance
import DiceFormula.Proofs.Roll.Outcome
import Mathlib.Data.Rat.Init

namespace DiceFormula

variable {α : Type} [Scalar α]

/-- The part of a segment that decides what it denotes. -/
def Segment.content (s : Segment) : Operation × List Char := (s.operation, s.node)

/-- An operator character writes the operation that is read from it. -/
theorem Operation.eq_symbol_of_ofSymbol? {o : Char} {op : Operation} (h : ofSymbol? o = some op) :
    o = op.symbol ∧ op.isEach = false := by
  unfold ofSymbol? at h
  split at h <;> cases h <;> exact ⟨rfl, rfl⟩

/-- The segments of an expression behind an operator. -/
def Segment.behind (op : Operation) (ss : List Segment) : List Segment :=
  ss.modifyHead fun s => { s with operation := op }

/-- The links of a chain behind an operator. -/
def Link.behind (op : Operation) (ls : List (Link α)) : List (Link α) :=
  ls.modifyHead fun l => { l with operation := op }

theorem Segment.forall₂_denotes_congr {ss ss' : List Segment} {ls : List (Link α)}
    (h : ss.map content = ss'.map content) (hls : List.Forall₂ Denotes ss ls) :
    List.Forall₂ Denotes ss' ls := by
  let R (x : Operation × List Char) (l : Link α) : Prop :=
    x.1 = l.operation ∧ Pool.ofNode? (String.ofList x.2) = some l.pool
  have hR : List.Forall₂ R (ss.map content) ls := List.forall₂_map_left_iff.2 hls
  rw [h] at hR
  exact (List.forall₂_map_left_iff (f := content)).1 hR

theorem Segment.forall₂_denotes_behind {ss : List Segment} {ls : List (Link α)} (op : Operation)
    (h : List.Forall₂ Denotes ss ls) :
    List.Forall₂ Denotes (behind op ss) (Link.behind op ls) := by
  cases h with
  | nil => exact .nil
  | cons hs hss => exact .cons ⟨rfl, hs.2⟩ hss

namespace Expression
namespace Cursor

/-- Cursors that cut alike from now on. -/
structure Alike (k k' : Cursor) : Prop where
  inside : k.inside = k'.inside
  operation : k.operation = k'.operation
  node : k.node = k'.node
  cutAt? : ∀ c, cutAt? k.previous c = cutAt? k'.previous c

namespace Alike

variable {k k' : Cursor}

theorem cut? (h : k.Alike k') (c : Char) : k.cut? c = k'.cut? c := by
  rw [Cursor.cut?, Cursor.cut?, h.inside, h.cutAt?]

theorem keep (h : k.Alike k') (c : Char) : (k.keep c).Alike (k'.keep c) where
  inside := by rw [Cursor.keep, Cursor.keep, insideAfter, insideAfter, h.inside]
  operation := h.operation
  node := congrArg (c :: ·) h.node
  cutAt? d := by
    show Expression.cutAt? (k.previousAfter c) d = Expression.cutAt? (k'.previousAfter c) d
    rw [previousAfter, previousAfter]
    split
    · exact h.cutAt? d
    · rfl

theorem next (k k' : Cursor) (op : Operation) (c : Char) : (k.next op c).Alike (k'.next op c) :=
  ⟨rfl, rfl, rfl, fun _ => rfl⟩

theorem content (h : k.Alike k') : k.segment.content = k'.segment.content := by
  rw [segment, segment, Segment.content, Segment.content, Segment.node, Segment.node, h.operation,
    h.node]

/-- **Alike cursors cut off the same segments.** -/
theorem cut (h : k.Alike k') (cs : List Char) :
    (k.cut cs).map Segment.content = (k'.cut cs).map Segment.content := by
  induction cs generalizing k k' with
  | nil => exact congrArg ([·]) h.content
  | cons c cs ih =>
    rw [Cursor.cut, Cursor.cut, h.cut? c]
    split
    · rw [List.map_cons, List.map_cons, h.content, ih (next k k' _ c)]
    · exact ih (h.keep c)

end Alike

/-- The operation at a cursor is that of the first segment alone. -/
theorem cut_operation (k : Cursor) (op : Operation) (cs : List Char) :
    ({ k with operation := op } : Cursor).cut cs = Segment.behind op (k.cut cs) := by
  induction cs generalizing k with
  | nil => rfl
  | cons c cs ih =>
    rw [cut, cut]
    have hcut : ({ k with operation := op } : Cursor).cut? c = k.cut? c := rfl
    rw [hcut]
    split
    · rfl
    · exact ih (k.keep c)

/-- A parenthesis is no part of the content. -/
theorem content_keep (k : Cursor) {c : Char} (hc : inNode c = false) :
    (k.keep c).segment.content = k.segment.content :=
  congrArg (k.operation, ·) (k.node_keep hc)

namespace Fresh

variable {k : Cursor} {op : Operation}

/-- Behind an operator is like the start of a text. -/
theorem alike (h : k.Fresh op) (start : Nat) :
    ({ begin start with operation := op } : Cursor).Alike k where
  inside := h.outside.symm
  operation := h.operation.symm
  node := h.node.symm
  cutAt? c := by
    have hsign := h.sign
    show Expression.cutAt? none c = Expression.cutAt? k.previous c
    cases hp : k.previous with
    | none => rfl
    | some p =>
      rw [hp] at hsign
      have hsame : isSign (some p) c = isSign none c := by
        simp only [isSign, Bool.and_eq_true] at hsign ⊢
        rw [hsign.2]
      have hparen : some p ≠ some '(' := by
        rintro ⟨⟩
        cases hsign
      rw [Expression.cutAt?, Expression.cutAt?, hsame]
      simp only [if_neg hparen, reduceCtorEq, if_false]

/-- **What stands behind an operator is cut as it is cut alone.** -/
theorem map_cut (h : k.Fresh op) (start : Nat) (cs : List Char) :
    (k.cut cs).map Segment.content =
      (Segment.behind op ((begin start).cut cs)).map Segment.content := by
  rw [← cut_operation]
  exact ((h.alike start).cut cs).symm

/-- The parenthesis that closes it changes nothing. -/
theorem map_cut_concat (h : k.Fresh op) {cs : List Char} {position : Nat}
    (hbalance : checkBalance none [] position cs = .ok ()) :
    (k.cut (cs ++ [')'])).map Segment.content = (k.cut cs).map Segment.content := by
  obtain ⟨ss, hss⟩ := exists_reads k cs
  have houtside : (k.after cs).inside = false := inside_after hbalance h.outside
  have hclose : (k.after cs).cut [')'] = [((k.after cs).keep ')').segment] :=
    reads_keep houtside rfl []
  have hcut := hss []
  rw [List.append_nil, cut] at hcut
  rw [hss, hclose, hcut, List.map_append, List.map_append, List.map_singleton, List.map_singleton,
    content_keep (k.after cs) rfl]

end Fresh
end Cursor

end Expression

namespace Chain

open Expression

/-- An expression without blanks at its ends, and the links that its segments denote. -/
structure Accepts (cs : List Char) (ls : List (Link α)) : Prop where
  trim_eq : trim cs = cs
  balanced : Balanced cs
  denotes : ∀ start, List.Forall₂ Segment.Denotes ((Cursor.begin start).cut cs) ls

theorem exists_accepts {text : String} {c : Chain α} (htrim : trim text.toList = text.toList)
    (h : Chain.parse text = .ok c) :
    ∃ ls, Accepts text.toList ls ∧ Registry.chainOf? ls = some c := by
  obtain ⟨ss, ls, hsplit, hls, hc⟩ := parse_eq_ok_iff.1 h
  obtain ⟨hbalance, rfl⟩ := split_eq_ok_iff.1 hsplit
  rw [htrim] at hbalance hls
  have halike (start : Nat) : (Cursor.begin (startOf text.toList)).Alike (.begin start) :=
    ⟨rfl, rfl, rfl, fun _ => rfl⟩
  exact ⟨ls, ⟨htrim, balanced_of_checkBalance hbalance, fun start =>
    Segment.forall₂_denotes_congr ((halike start).cut text.toList) hls⟩, hc⟩

namespace Accepts

variable {cs ds : List Char} {ls ms : List (Link α)}

/-- **An accepted expression denotes the chain of its links,** whatever blanks stand around it. -/
theorem parse_eq_of_trim (h : Accepts cs ls) {text : String} (htrim : trim text.toList = cs)
    {c : Chain α} (hc : Registry.chainOf? ls = some c) : Chain.parse text = .ok c := by
  refine parse_eq_ok_iff.2 ⟨_, ls, ?_, h.denotes (startOf text.toList), hc⟩
  rw [split_eq_ok_iff, htrim]
  exact ⟨h.balanced.checkBalance_eq _, rfl⟩

theorem parse_eq (h : Accepts cs ls) {c : Chain α} (hc : Registry.chainOf? ls = some c) :
    Chain.parse (String.ofList cs) = .ok c :=
  h.parse_eq_of_trim (by rw [String.toList_ofList, h.trim_eq]) hc

theorem exists_concat (h : Accepts cs ls) : ∃ ds d, cs = ds ++ [d] ∧ isBlank d = false := by
  rcases List.eq_nil_or_concat' cs with rfl | ⟨ds, d, rfl⟩
  · cases h.denotes 0 with
    | cons hs _ => cases hs.not_blank
  · exact ⟨ds, d, rfl, (trim_eq_self_iff.1 h.trim_eq).2 d (by simp)⟩

theorem exists_cons (h : Accepts cs ls) : ∃ d ds, cs = d :: ds ∧ isBlank d = false := by
  obtain ⟨ds, d, hne, -⟩ := h.exists_concat
  cases cs with
  | nil => simp at hne
  | cons d ds => exact ⟨d, ds, rfl, (trim_eq_self_iff.1 h.trim_eq).1 d rfl⟩

/-- Behind an expression the cursor is done with its last node. -/
theorem exists_done (h : Accepts cs ls) (start : Nat) : ∃ ss k op node,
    (Cursor.begin start).Reads cs ss k ∧ k.Done op node ∧
      List.Forall₂ Segment.Denotes (ss ++ [k.segment]) ls := by
  obtain ⟨ss, hss⟩ := (Cursor.begin start).exists_reads cs
  have hcut := hss []
  rw [List.append_nil, Cursor.cut] at hcut
  have hdenotes := h.denotes start
  rw [hcut] at hdenotes
  have hbalance := h.balanced.checkBalance_eq start
  have hinside := Cursor.inside_after (k := .begin start) hbalance rfl
  obtain ⟨l, -, hl, -, -⟩ :=
    List.forall₂_cons_right_iff.1 (List.forall₂_drop_append _ _ _ hdenotes.flip)
  have hclosed : ((Cursor.begin start).after cs).Closed := by
    obtain ⟨ds, d, rfl, hd⟩ := h.exists_concat
    exact Cursor.closed_after hd hbalance hl
  exact ⟨ss, _, _, _, hss, ⟨hinside, rfl, rfl, hclosed⟩, hdenotes⟩

/-- **An operator cuts off the expression in front of it.** -/
theorem denotes_append (h : Accepts cs ls) {glue rest : List Char} {op : Operation}
    (hglue : ∀ (k : Cursor) op' node, k.Done op' node →
      ∃ s k', k.Reads glue [s] k' ∧ (s.operation = op' ∧ s.node = node) ∧ k'.Fresh op)
    (hrest : ∀ k : Cursor, k.Fresh op → List.Forall₂ Segment.Denotes (k.cut rest) ms)
    (start : Nat) :
    List.Forall₂ Segment.Denotes ((Cursor.begin start).cut (cs ++ (glue ++ rest))) (ls ++ ms) := by
  obtain ⟨ss, k, op', node, hreads, hk, hdenotes⟩ := h.exists_done start
  obtain ⟨s, k', hreads', ⟨hop, hnode⟩, hk'⟩ := hglue k op' node hk
  rw [hreads, hreads', ← List.append_assoc]
  refine List.rel_append (Segment.forall₂_denotes_congr ?_ hdenotes) (hrest k' hk')
  rw [List.map_append, List.map_append, List.map_singleton, List.map_singleton,
    show s.content = k.segment.content from Prod.ext (hop.trans hk.operation.symm)
      (hnode.trans hk.node.symm)]

/-- What stands between a first and a last character that are not blank is not trimmed. -/
theorem trim_append (hs : Accepts cs ls) {rest : List Char}
    (hrest : ∃ es e, rest = es ++ [e] ∧ isBlank e = false) : trim (cs ++ rest) = cs ++ rest := by
  obtain ⟨d, ds, rfl, hd⟩ := hs.exists_cons
  obtain ⟨es, e, rfl, he⟩ := hrest
  exact trim_eq_self ⟨d, _, rfl, hd⟩ ⟨_, e, (List.append_assoc ..).symm, he⟩

/-- **Expressions join at an operator.** -/
theorem append (hs : Accepts cs ls) (ht : Accepts ds ms) {op : Operation} (h : op.isEach = false) :
    Accepts (cs ++ ([op.symbol] ++ ds)) (ls ++ Link.behind op ms) where
  trim_eq := by
    obtain ⟨es, e, rfl, he⟩ := ht.exists_concat
    exact hs.trim_append ⟨[op.symbol] ++ es, e, by simp, he⟩
  balanced := hs.balanced.append ((Balanced.single (by cases op <;> decide)).append ht.balanced)
  denotes := hs.denotes_append (fun _ _ _ hk => hk.exists_reads_operator h) fun k hk =>
    Segment.forall₂_denotes_congr (hk.map_cut 0 ds).symm
      (Segment.forall₂_denotes_behind op (ht.denotes 0))

/-- **Expressions join at an operator in parentheses.** -/
theorem append_parens (hs : Accepts cs ls) (ht : Accepts ds ms) {op : Operation}
    (h : op.isEach = false) :
    Accepts (cs ++ (['(', op.symbol] ++ (ds ++ [')'])))
      (ls ++ Link.behind (op.toEach?.getD op) ms) where
  trim_eq := hs.trim_append ⟨['(', op.symbol] ++ ds, ')', by simp, rfl⟩
  balanced := by
    have hsymbol : Balanced [op.symbol] := .single (by cases op <;> decide)
    have hparens := (hsymbol.append ht.balanced).parens
    exact hs.balanced.append (by simpa using hparens)
  denotes := hs.denotes_append (fun _ _ _ hk => hk.exists_reads_parens h) fun k hk =>
    Segment.forall₂_denotes_congr
      ((hk.map_cut_concat (ht.balanced.checkBalance_eq 0)).trans (hk.map_cut 0 ds)).symm
      (Segment.forall₂_denotes_behind _ (ht.denotes 0))

/-- A node is accepted alone. -/
theorem of_node {p : Pool α} (hcs : NodeText cs) (hp : Pool.ofNode? (String.ofList cs) = some p) :
    Accepts cs [⟨.plus, p⟩] where
  trim_eq := trim_eq_self hcs.exists_cons hcs.exists_concat
  balanced := hcs.balanced
  denotes start := by
    obtain ⟨k, hreads, hk⟩ := (Cursor.fresh_begin start).exists_reads_node hcs
    have hcut := hreads []
    rw [List.append_nil, Cursor.cut] at hcut
    rw [hcut]
    exact .cons ⟨hk.operation, hk.node ▸ hp⟩ .nil

/-- **One more link is accepted** behind an expression. -/
theorem concat (h : Accepts cs ls) (op : Operation) {p : Pool α} (hds : NodeText ds)
    (hp : Pool.ofNode? (String.ofList ds) = some p) :
    Accepts (cs ++ op.linkText ds) (ls ++ [⟨op, p⟩]) := by
  have hnode := of_node hds hp
  cases op with
  | plus | minus | multiply | divide => exact h.append hnode rfl
  | eachPlus => exact @append_parens _ _ _ _ _ _ h hnode .plus rfl
  | eachMinus => exact @append_parens _ _ _ _ _ _ h hnode .minus rfl

end Accepts

omit [Scalar α] in
/-- The links of a chain, the first of which counts as a plus, give the chain. -/
theorem chainOf?_append {ls ms : List (Link α)} {c d : Chain α}
    (hc : Registry.chainOf? ls = some c) (hd : Registry.chainOf? ms = some d) (op : Operation) :
    Registry.chainOf? (ls ++ Link.behind op ms) = some (c.extend (Link.behind op d.links)) := by
  cases ls with
  | nil => cases hc
  | cons l ls =>
    cases ms with
    | nil => cases hd
    | cons m ms =>
      obtain rfl := Option.some.inj hc
      obtain rfl := Option.some.inj hd
      have hlinks : ((ofPool m.pool).extend ms).links = ⟨.plus, m.pool⟩ :: ms := links_extend _ _
      rw [hlinks]
      simp only [Registry.chainOf?, extend, List.cons_append, List.foldl_append, Link.behind,
        List.modifyHead_cons]

/-- **Joining expressions joins chains.**  An operator between two expressions, neither of
which begins or ends with a blank, extends the chain of the first by the links of the
second behind that operator.  With parentheses around the operator and the second
expression the operator is taken in its each variant, if it has one. -/
theorem parse_append {s t : String} {c d : Chain α} {o : Char} {op : Operation}
    (hs : trim s.toList = s.toList) (ht : trim t.toList = t.toList) (hc : Chain.parse s = .ok c)
    (hd : Chain.parse t = .ok d) (ho : Operation.ofSymbol? o = some op) :
    Chain.parse (s ++ String.singleton o ++ t) = .ok (c.extend (Link.behind op d.links)) ∧
      Chain.parse (s ++ "(" ++ String.singleton o ++ t ++ ")") =
        .ok (c.extend (Link.behind (op.toEach?.getD op) d.links)) := by
  obtain ⟨ls, hs, hls⟩ := exists_accepts hs hc
  obtain ⟨ms, ht, hms⟩ := exists_accepts ht hd
  obtain ⟨rfl, hplain⟩ := Operation.eq_symbol_of_ofSymbol? ho
  have happend := (hs.append ht hplain).parse_eq (chainOf?_append hls hms op)
  have hparens :=
    (hs.append_parens ht hplain).parse_eq (chainOf?_append hls hms (op.toEach?.getD op))
  have htext : s ++ String.singleton op.symbol ++ t =
      String.ofList (s.toList ++ ([op.symbol] ++ t.toList)) := by
    rw [← String.toList_inj, String.toList_ofList, String.toList_append, String.toList_append,
      String.toList_singleton, List.append_assoc]
  have htext' : s ++ "(" ++ String.singleton op.symbol ++ t ++ ")" =
      String.ofList (s.toList ++ (['(', op.symbol] ++ (t.toList ++ [')']))) := by
    have hopen : "(".toList = ['('] := rfl
    have hclose : ")".toList = [')'] := rfl
    rw [← String.toList_inj, String.toList_ofList, String.toList_append, String.toList_append,
      String.toList_append, String.toList_append, String.toList_singleton, hopen, hclose]
    simp only [List.append_assoc, List.cons_append, List.nil_append]
  rw [htext, htext']
  exact ⟨happend, hparens⟩

/-- The hypotheses of `parse_append` are satisfiable, with a sign, an operator and parentheses
in the second expression. -/
theorem parse_append_signed :
    ∃ c d : Chain ℚ, Chain.parse "2d6 + .5" = .ok c ∧ Chain.parse "-2(-d8)" = .ok d ∧
      Chain.parse ("2d6 + .5" ++ String.singleton '-' ++ "-2(-d8)") =
        .ok (c.extend (Link.behind .minus d.links)) ∧
      Chain.parse ("2d6 + .5" ++ "(" ++ String.singleton '-' ++ "-2(-d8)" ++ ")") =
        .ok (c.extend (Link.behind .eachMinus d.links)) := by
  obtain ⟨c, hc⟩ := Option.isSome_iff_exists.1
    (by decide +kernel : (Chain.parse (α := ℚ) "2d6 + .5").toOption.isSome = true)
  obtain ⟨d, hd⟩ := Option.isSome_iff_exists.1
    (by decide +kernel : (Chain.parse (α := ℚ) "-2(-d8)").toOption.isSome = true)
  rw [toOption_eq_some_iff] at hc hd
  have ho : Operation.ofSymbol? '-' = some .minus := rfl
  obtain ⟨happend, hparens⟩ := parse_append (by decide +kernel) (by decide +kernel) hc hd ho
  exact ⟨c, d, hc, hd, happend, hparens⟩

end Chain
end DiceFormula
