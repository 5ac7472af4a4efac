/-
# Expressions that read alike

An expression is read as a chain, or something is wrong with it (`Chain.reading`).  Which of the
two, and what, is told by less than its text:

* by its balance, which does not depend on places (`Expression.balance`), nor on characters that
  neither open nor close anything (`Expression.balance_insert`);
* by the operations and nodes of its segments, and of a node, spaces at its ends do not matter
  (`Segment.Akin`).

Two cursors that hold the same segments in this sense, and take the next operator for the same,
stay so while they read the same text (`Expression.Cursor.Akin`).  So expressions that differ at
one place only are compared at this place (`Chain.reading_congr`).
-/

import DiceFormula.Proofs.Expression.Division
import DiceFormula.Proofs.Expression.Lexeme

namespace DiceFormula

variable {α : Type} [Scalar α]

/-- What an expression is read as: a chain, or the kind of what is wrong with it. -/
def Chain.reading (text : String) : Except ParseError.Kind (Chain α) :=
  (Chain.parse text).mapError ParseError.kind

theorem Chain.reading_eq_ok_iff {s : String} {c : Chain α} :
    reading s = .ok c ↔ parse s = .ok c := by
  rw [reading]
  cases parse (α := α) s with
  | error e => exact ⟨by rintro ⟨⟩, by rintro ⟨⟩⟩
  | ok c' => exact ⟨by rintro ⟨⟩; rfl, by rintro ⟨⟩; rfl⟩

/-! ### Spaces at the ends of a node -/

namespace Token

/-- What ends with another character goes no further than into the blanks behind a text. -/
theorem exists_append_of_blanks {p : Char → Bool} {xs ys s s' : List Char} {c : Char}
    (hc : p c = false) (hs' : ∀ d ∈ s', p d = true) (h : ys ++ s' = xs ++ [c] ++ s) :
    ∃ r, ys = xs ++ [c] ++ r ∧ s = r ++ s' := by
  rcases List.append_eq_append_iff.1 h with ⟨r, hxs, hr⟩ | ⟨r, hys, hr⟩
  · rcases List.eq_nil_or_concat' r with rfl | ⟨r, d, rfl⟩
    · exact ⟨[], by rw [hxs, List.append_nil, List.append_nil], by rw [hr]; rfl⟩
    · rw [← List.append_assoc] at hxs
      obtain ⟨-, hd⟩ := List.append_inj' hxs rfl
      obtain rfl : c = d := List.singleton_inj.1 hd
      rw [hs' c (by rw [hr]; simp)] at hc
      cases hc
  · exact ⟨r, hys, hr⟩

theorem spaces_nil : Spaces [] := by
  rintro _ ⟨⟩

theorem Spaces.append {s s' : List Char} (h : Spaces s) (h' : Spaces s') : Spaces (s ++ s') :=
  fun c hc => (List.mem_append.1 hc).elim (h c) (h' c)

theorem Shape.Spelled.of_append {s : Shape} {cs after : List Char} (h : s.Spelled (cs ++ after))
    (hafter : Spaces after) : s.Spelled cs := by
  generalize htext : cs ++ after = text at h
  cases h with
  | one h hbefore hend =>
    obtain ⟨front, c, rfl, hc⟩ := h.exists_concat
    rw [← List.append_assoc] at htext
    obtain ⟨r, rfl, rfl⟩ := exists_append_of_blanks hc hafter htext
    rw [List.append_assoc _ front]
    exact .one h hbefore fun c hc => hend c (List.mem_append_left _ hc)
  | two h h' hbefore hbetween hend =>
    obtain ⟨front, c, rfl, hc⟩ := h'.exists_concat
    rw [← List.append_assoc] at htext
    obtain ⟨r, rfl, rfl⟩ := exists_append_of_blanks hc hafter htext
    rw [List.append_assoc _ front]
    exact .two h h' hbefore hbetween fun c hc => hend c (List.mem_append_left _ hc)

theorem Shape.Spelled.append {s : Shape} {cs after : List Char} (h : s.Spelled cs)
    (hafter : Spaces after) : s.Spelled (cs ++ after) := by
  cases h with
  | one h hbefore hend =>
    rw [List.append_assoc]
    exact .one h hbefore (hend.append hafter)
  | two h h' hbefore hbetween hend =>
    rw [List.append_assoc]
    exact .two h h' hbefore hbetween (hend.append hafter)

end Token

open Token in
/-- **Spaces at its ends do not change what a node denotes.** -/
theorem Pool.ofNode?_spaces {before after : List Char} (hbefore : Spaces before)
    (hafter : Spaces after) (cs : List Char) :
    (ofNode? (String.ofList (before ++ cs ++ after)) : Option (Pool α)) =
      ofNode? (String.ofList cs) := by
  have hfront (ds : List Char) : (ofNode? (String.ofList (before ++ ds)) : Option (Pool α)) =
      ofNode? (String.ofList ds) := by
    rw [ofNode?, ofNode?, String.toList_ofList, String.toList_ofList, shape?, shape?, skip, skip,
      List.dropWhile_append_of_pos hbefore]
  rw [List.append_assoc, hfront]
  ext p
  rw [ofNode?_eq_some_iff, ofNode?_eq_some_iff]
  constructor
  · rintro ⟨s, hs, hp⟩
    exact ⟨s, hs.of_append hafter, hp⟩
  · rintro ⟨s, hs, hp⟩
    exact ⟨s, hs.append hafter, hp⟩

/-! ### Segments -/

/-- Segments with the same operation and, but for spaces around it, the same node. -/
structure Segment.Akin (s t : Segment) : Prop where
  operation : t.operation = s.operation
  node : ∃ before after, Token.Spaces before ∧ Token.Spaces after ∧
    t.node = before ++ s.node ++ after

theorem Token.Spaces.isBlank {cs : List Char} (h : Spaces cs) : ∀ c ∈ cs, isBlank c = true :=
  fun c hc => isBlank_of_isSpace (h c hc)

namespace Registry

/-- **Segments that are akin are read alike.** -/
theorem mapError_readLink {s t : Segment} (h : s.Akin t) :
    ((builtin (α := α)).readLink t).mapError ParseError.kind =
      (builtin.readLink s).mapError ParseError.kind := by
  obtain ⟨hop, before, after, hbefore, hafter, hnode⟩ := h
  have hblank : t.node.all isBlank = s.node.all isBlank := by
    rw [hnode, List.all_append, List.all_append, List.all_eq_true.2 hbefore.isBlank,
      List.all_eq_true.2 hafter.isBlank, Bool.true_and, Bool.and_true]
  have hpool : (Pool.ofNode? (String.ofList t.node) : Option (Pool α)) =
      Pool.ofNode? (String.ofList s.node) := by
    rw [hnode]
    exact Pool.ofNode?_spaces hbefore hafter s.node
  rw [readLink, readLink, readSegment, readSegment, builtin_readNode?, builtin_readNode?, hblank,
    hpool, hop]
  split
  · rfl
  · cases (Pool.ofNode? (String.ofList s.node) : Option (Pool α)) <;> rfl

theorem mapError_bind {β γ : Type} (x : Except ParseError β) (f : β → Except ParseError γ) :
    (x >>= f).mapError ParseError.kind =
      x.mapError ParseError.kind >>= fun b => (f b).mapError ParseError.kind := by
  cases x <;> rfl

theorem mapError_mapM_readLink {ss ts : List Segment} (h : List.Forall₂ Segment.Akin ss ts) :
    (ts.mapM (builtin (α := α)).readLink).mapError ParseError.kind =
      (ss.mapM builtin.readLink).mapError ParseError.kind := by
  induction h with
  | nil => rfl
  | cons hs hss ih =>
    simp only [List.mapM_cons, mapError_bind, mapError_readLink hs, ih]

end Registry

/-! ### Balance without places -/

namespace Expression

/-- What is wrong with the balance of a text that begins inside of a bracket or outside, behind so
many open parentheses. -/
def balance (inside : Bool) (depth : Nat) : List Char → Except ParseError.Kind Unit
  | [] =>
    if inside then .error .unbalancedBracket
    else if depth = 0 then .ok () else .error .unbalancedParenthesis
  | c :: cs =>
    if inside then
      if c = '[' then .error .unbalancedBracket else balance (c != ']') depth cs
    else if c = '[' then balance true depth cs
    else if c = ']' then .error .unbalancedBracket
    else if c = '(' then balance false (depth + 1) cs
    else if c = ')' then
      if depth = 0 then .error .unbalancedParenthesis else balance false (depth - 1) cs
    else balance false depth cs

/-- **The kind of a balance error does not depend on places.** -/
theorem mapError_checkBalance (cs : List Char) :
    ∀ (bracket : Option Nat) (parens : List Nat) (position : Nat),
      (checkBalance bracket parens position cs).mapError ParseError.kind =
        balance bracket.isSome parens.length cs := by
  induction cs with
  | nil =>
    intro bracket parens position
    cases bracket with
    | some i => rfl
    | none => cases parens <;> rfl
  | cons c cs ih =>
    intro bracket parens position
    cases bracket with
    | some i =>
      rw [checkBalance, balance, Option.isSome_some, if_pos rfl]
      split_ifs with h₁ h₂
      · rfl
      · rw [ih, h₂]
        rfl
      · rw [ih, bne_iff_ne.2 h₂]
        rfl
    | none =>
      rw [checkBalance_outside, balance, Option.isSome_none, if_neg Bool.false_ne_true]
      split_ifs with h₁ h₂ h₃ h₄ h₅
      · exact ih _ _ _
      · rfl
      · exact ih _ _ _
      · obtain rfl := List.length_eq_zero_iff.1 h₅
        rfl
      · cases parens with
        | nil => exact absurd rfl h₅
        | cons i parens => exact ih _ _ _
      · exact ih _ _ _

/-- Whether a bracket is open, once `c` is read. -/
def insideOf (inside : Bool) (c : Char) : Bool := if inside then c != ']' else c == '['

theorem bracketOpen_concat_eq (before : List Char) (c : Char) :
    bracketOpen (before ++ [c]) = insideOf (bracketOpen before) c := by
  rw [bracketOpen_concat, isBracket, insideOf]
  cases bracketOpen before <;> by_cases h₁ : c = '[' <;> by_cases h₂ : c = ']' <;> simp_all

/-- What is wrong behind a character depends on the state behind it. -/
theorem balance_cons_congr {inside : Bool} {c : Char} {cs ds : List Char}
    (h : ∀ depth, balance (insideOf inside c) depth cs = balance (insideOf inside c) depth ds)
    (depth : Nat) : balance inside depth (c :: cs) = balance inside depth (c :: ds) := by
  rw [insideOf] at h
  rw [balance, balance]
  cases inside with
  | true =>
    rw [if_pos rfl, if_pos rfl]
    split_ifs
    · rfl
    · exact h depth
  | false =>
    rw [if_neg Bool.false_ne_true] at h
    rw [if_neg Bool.false_ne_true, if_neg Bool.false_ne_true]
    split_ifs with h₁ h₂ h₃ h₄ h₅
    · subst h₁
      exact h depth
    · rfl
    · subst h₃
      exact h (depth + 1)
    · rfl
    · subst h₄
      exact h (depth - 1)
    · rw [beq_false_of_ne h₁] at h
      exact h depth

/-- A text is balanced as what follows it is, whatever that is. -/
theorem balance_append_congr {before cs ds : List Char}
    (h : ∀ depth, balance (bracketOpen before) depth cs = balance (bracketOpen before) depth ds) :
    ∀ depth, balance false depth (before ++ cs) = balance false depth (before ++ ds) := by
  -- From the end of the text in front, where its last bracket is.
  induction before using List.reverseRecOn generalizing cs ds with
  | nil => exact h
  | append_singleton before c ih =>
    rw [List.append_assoc, List.append_assoc]
    rw [bracketOpen_concat_eq] at h
    exact ih (balance_cons_congr h)

/-- A character that neither opens nor closes anything. -/
def Passes (inside : Bool) (c : Char) : Prop :=
  isBracket c = false ∧ (inside = false → inNode c = true)

theorem balance_passes {inside : Bool} {cs : List Char} (h : ∀ c ∈ cs, Passes inside c)
    (depth : Nat) (rest : List Char) :
    balance inside depth (cs ++ rest) = balance inside depth rest := by
  induction cs with
  | nil => rfl
  | cons c cs ih =>
    obtain ⟨⟨hc, hparen⟩, hcs⟩ := List.forall_mem_cons.1 h
    simp only [isBracket, Bool.or_eq_false_iff, beq_eq_false_iff_ne] at hc
    rw [List.cons_append, balance]
    cases inside with
    | true => rw [if_pos rfl, if_neg hc.1, bne_iff_ne.2 hc.2, ih hcs]
    | false =>
      obtain ⟨h₃, h₄⟩ := inNode_iff.1 (hparen rfl)
      rw [if_neg Bool.false_ne_true, if_neg hc.1, if_neg hc.2, if_neg h₃, if_neg h₄, ih hcs]

/-- **What neither opens nor closes anything does not change the balance.** -/
theorem balance_insert {before cs : List Char} (h : ∀ c ∈ cs, Passes (bracketOpen before) c)
    (after : List Char) :
    balance false 0 (before ++ cs ++ after) = balance false 0 (before ++ after) := by
  rw [List.append_assoc]
  exact balance_append_congr (fun depth => balance_passes h depth after) 0

theorem passes_of_isBlank {c : Char} (h : isBlank c = true) (inside : Bool) : Passes inside c := by
  refine ⟨?_, fun _ => inNode_iff.2 ⟨?_, ?_⟩⟩
  · by_contra hc
    rw [isBlank_of_isBracket (Bool.not_eq_false _ ▸ hc)] at h
    cases h
  · rintro rfl
    cases h
  · rintro rfl
    cases h

/-- Blanks are part of a node. -/
theorem filter_inNode_of_isBlank {ws : List Char} (h : ∀ c ∈ ws, isBlank c = true) :
    ws.filter inNode = ws :=
  List.filter_eq_self.2 fun c hc => (passes_of_isBlank (h c hc) false).2 rfl

/-- What is trimmed off behind a text are blanks. -/
theorem exists_eq_trimEnd_append_blanks (cs : List Char) :
    ∃ ws, (∀ c ∈ ws, isBlank c = true) ∧ cs = trimEnd cs ++ ws := by
  refine ⟨(cs.reverse.takeWhile isBlank).reverse,
    fun c hc => List.mem_takeWhile_imp (List.mem_reverse.1 hc), ?_⟩
  rw [trimEnd, ← List.reverse_append, List.takeWhile_append_dropWhile, List.reverse_reverse]

/-- What is trimmed off a text are blanks. -/
theorem exists_eq_trim_append_blanks (cs : List Char) :
    ∃ ws ws', (∀ c ∈ ws, isBlank c = true) ∧ (∀ c ∈ ws', isBlank c = true) ∧
      cs = ws ++ trim cs ++ ws' := by
  obtain ⟨ws', hws', hcs⟩ := exists_eq_trimEnd_append_blanks cs
  refine ⟨(trimEnd cs).takeWhile isBlank, ws', fun c hc => List.mem_takeWhile_imp hc, hws', ?_⟩
  rwa [trim, trimStart, List.takeWhile_append_dropWhile]

theorem balance_trim (cs : List Char) : balance false 0 (trim cs) = balance false 0 cs := by
  obtain ⟨ws, ws', hws, hws', hcs⟩ := exists_eq_trim_append_blanks cs
  have hpasses : ∀ c ∈ ws', Passes (bracketOpen (ws ++ trim cs)) c :=
    fun c hc => passes_of_isBlank (hws' c hc) _
  have hend := balance_insert hpasses []
  rw [List.append_nil, List.append_nil, ← hcs] at hend
  rw [hend, balance_passes fun c hc => passes_of_isBlank (hws c hc) false]

theorem mapError_checkBalance_trim (cs : List Char) (position : Nat) :
    (checkBalance none [] position (trim cs)).mapError ParseError.kind = balance false 0 cs := by
  rw [mapError_checkBalance, ← balance_trim cs]
  rfl

/-- An expression is cut if it is balanced. -/
theorem split_eq_ok_iff_balance {cs : List Char} {ss : List Segment} :
    split cs = .ok ss ↔
      balance false 0 cs = .ok () ∧ ss = (Cursor.begin (startOf cs)).cut (trim cs) := by
  rw [split_eq_ok_iff, ← mapError_checkBalance_trim cs (startOf cs)]
  refine and_congr_left fun _ => ?_
  cases checkBalance none [] (startOf cs) (trim cs) with
  | error e => exact ⟨by rintro ⟨⟩, by rintro ⟨⟩⟩
  | ok u => exact ⟨fun _ => rfl, fun _ => rfl⟩

/-- The error of one that is not balanced has the kind that its balance tells. -/
theorem exists_split_eq_error {cs : List Char} {kind : ParseError.Kind}
    (h : balance false 0 cs = .error kind) : ∃ e, split cs = .error e ∧ e.kind = kind := by
  rw [← mapError_checkBalance_trim cs (startOf cs)] at h
  rw [split]
  cases hwalk : checkBalance none [] (startOf cs) (trim cs) with
  | error e =>
    rw [hwalk] at h
    exact ⟨e, rfl, Except.error.inj h⟩
  | ok u =>
    rw [hwalk] at h
    cases h

/-! ### What is trimmed -/

/-- A text is trimmed in front of a character that is not blank, and behind it. -/
theorem trimStart_append_cons {c : Char} (hc : isBlank c = false) (front back : List Char) :
    trimStart (front ++ c :: back) = trimStart front ++ c :: back := by
  rw [trimStart, List.dropWhile_append]
  split_ifs with hempty
  · rw [trimStart, List.isEmpty_iff.1 hempty, List.dropWhile_cons_of_neg (by simp [hc])]
    rfl
  · rfl

@[inherit_doc trimStart_append_cons]
theorem trimEnd_append_cons {c : Char} (hc : isBlank c = false) (front back : List Char) :
    trimEnd (front ++ c :: back) = front ++ c :: trimEnd back := by
  have hreverse : (front ++ c :: back).reverse = back.reverse ++ c :: front.reverse := by simp
  have h := trimStart_append_cons hc back.reverse front.reverse
  rw [trimStart, trimStart] at h
  rw [trimEnd, trimEnd, hreverse, h]
  simp

@[inherit_doc trimStart_append_cons]
theorem trim_append_cons {c : Char} (hc : isBlank c = false) (front back : List Char) :
    trim (front ++ c :: back) = trimStart front ++ c :: trimEnd back := by
  rw [trim, trimEnd_append_cons hc, trimStart_append_cons hc]

/-- Of blanks behind a text some are left when it is trimmed in front. -/
theorem exists_trimStart_append {ws : List Char} (hws : ∀ c ∈ ws, isBlank c = true)
    (before : List Char) :
    ∃ ws', ws' ⊆ ws ∧ trimStart (before ++ ws) = trimStart before ++ ws' := by
  rw [trimStart, trimStart, List.dropWhile_append]
  split_ifs with hempty
  · refine ⟨[], List.nil_subset ws, ?_⟩
    rw [List.isEmpty_iff.1 hempty, List.dropWhile_eq_nil_iff.2 hws]
    rfl
  · exact ⟨ws, List.Subset.refl ws, rfl⟩

@[inherit_doc exists_trimStart_append]
theorem exists_trimEnd_append {ws : List Char} (hws : ∀ c ∈ ws, isBlank c = true)
    (after : List Char) : ∃ ws', ws' ⊆ ws ∧ trimEnd (ws ++ after) = ws' ++ trimEnd after := by
  obtain ⟨ws', hws', h⟩ := exists_trimStart_append
    (fun c hc => hws c (List.mem_reverse.1 hc)) after.reverse
  rw [trimStart, trimStart] at h
  refine ⟨ws'.reverse, fun c hc => List.mem_reverse.1 (hws' (List.mem_reverse.1 hc)), ?_⟩
  rw [trimEnd, trimEnd, List.reverse_append, h, List.reverse_append]

/-- Blanks at the ends are trimmed. -/
theorem trim_blanks {ws ws' : List Char} (hws : ∀ c ∈ ws, isBlank c = true)
    (hws' : ∀ c ∈ ws', isBlank c = true) (cs : List Char) : trim (ws ++ cs ++ ws') = trim cs := by
  have hback : trimEnd (ws ++ cs ++ ws') = trimEnd (ws ++ cs) := by
    rw [trimEnd, List.reverse_append,
      List.dropWhile_append_of_pos fun c hc => hws' c (List.mem_reverse.1 hc)]
    rfl
  obtain ⟨ws₁, hsub, hfront⟩ := exists_trimEnd_append hws cs
  rw [trim, trim, hback, hfront, trimStart,
    List.dropWhile_append_of_pos fun c hc => hws c (hsub hc)]
  rfl

/-- Only blanks are trimmed, so what is told by other characters stays. -/
theorem filter_trimStart {p : Char → Bool} (h : ∀ c, isBlank c = true → p c = false)
    (cs : List Char) : (trimStart cs).filter p = cs.filter p := by
  have hblank : (cs.takeWhile isBlank).filter p = [] :=
    List.filter_eq_nil_iff.2 fun c hc => by simp [h c (List.mem_takeWhile_imp hc)]
  conv_rhs => rw [← List.takeWhile_append_dropWhile (p := isBlank) (l := cs), List.filter_append,
    hblank]
  rfl

theorem bracketOpen_trimStart (before : List Char) :
    bracketOpen (trimStart before) = bracketOpen before := by
  rw [bracketOpen, bracketOpen, filter_trimStart fun c hc => (passes_of_isBlank hc true).1]

theorem lastVisible_trimStart (before : List Char) :
    lastVisible (trimStart before) = lastVisible before := by
  rw [lastVisible, lastVisible, filter_trimStart fun c hc => by rw [hc]; rfl]

theorem lastVisible_of_isBlank {ws : List Char} (hws : ∀ c ∈ ws, isBlank c = true) :
    lastVisible ws = none := by
  rw [lastVisible, List.filter_eq_nil_iff.2 fun c hc => by simp [hws c hc]]
  rfl

theorem Divides.isBlank {before : List Char} {o : Char} (h : Divides before o) :
    isBlank o = false := by
  have hoperator := h.operator
  simp only [List.mem_cons, List.not_mem_nil, or_false] at hoperator
  rcases hoperator with rfl | rfl | rfl | rfl <;> rfl

theorem Divides.trimStart {before : List Char} {c : Char} (h : Divides before c) :
    Divides (trimStart before) c where
  operator := h.operator
  outside := by rw [bracketOpen_trimStart, h.outside]
  not_sign := by
    have hsign := h.not_sign
    rwa [IsSign, ← lastVisible_trimStart] at hsign

/-! ### Plain text -/

/-- A character that is neither an operator nor a bracket. -/
structure Plain (c : Char) : Prop where
  symbol : Operation.ofSymbol? c = none
  bracket : isBracket c = false

theorem plain_of_isBlank {c : Char} (h : isBlank c = true) : Plain c := by
  refine ⟨?_, (passes_of_isBlank h true).1⟩
  rw [Operation.ofSymbol?]
  all_goals
    rintro rfl
    cases h

theorem plain_of_isInert {c : Char} (h : isInert c = true) : Plain c := by
  refine ⟨?_, ?_⟩
  · rw [Operation.ofSymbol?]
    all_goals exact ne_of_isInert h rfl
  · rw [isBracket, beq_false_of_ne (ne_of_isInert h rfl), beq_false_of_ne (ne_of_isInert h rfl)]
    rfl

theorem plain_of_paren {c : Char} (h : inNode c = false) : Plain c := by
  rw [inNode, Bool.and_eq_false_iff, bne_eq_false_iff_eq, bne_eq_false_iff_eq] at h
  rcases h with rfl | rfl <;> exact ⟨rfl, rfl⟩

theorem insideOf_of_isBracket {c : Char} (hc : isBracket c = false) (inside : Bool) :
    insideOf inside c = inside := by
  simp only [isBracket, Bool.or_eq_false_iff] at hc
  rw [insideOf, bne, hc.1, hc.2]
  cases inside <;> rfl

/-- A cursor once plain text is read: nothing is cut off. -/
def Cursor.past (k : Cursor) (cs : List Char) : Cursor :=
  { k with previous := (lastVisible cs).or k.previous, node := cs.reverse ++ k.node }

theorem Cursor.past_append (k : Cursor) (cs ds : List Char) :
    k.past (cs ++ ds) = (k.past cs).past ds := by
  simp only [past, lastVisible_append, Option.or_assoc, List.reverse_append, List.append_assoc]

theorem Cursor.keep_plain {c : Char} (hc : Plain c) (k : Cursor) :
    k.cut? c = none ∧ k.keep c = k.past [c] := by
  constructor
  · rw [cut?, cutAt?, hc.symbol]
    simp
  · have hinside : k.insideAfter c = k.inside := insideOf_of_isBracket hc.bracket k.inside
    rw [keep, hinside, previousAfter, past, lastVisible, List.filter_singleton]
    cases isBlank c <;> rfl

/-- **Plain text is added to the segment.** -/
theorem Cursor.cut_plain {cs : List Char} (hcs : ∀ c ∈ cs, Plain c) (k : Cursor)
    (rest : List Char) : k.cut (cs ++ rest) = (k.past cs).cut rest := by
  induction cs generalizing k with
  | nil => rfl
  | cons c cs ih =>
    obtain ⟨hc, hcs⟩ := List.forall_mem_cons.1 hcs
    obtain ⟨hcut, hkeep⟩ := k.keep_plain hc
    rw [List.cons_append, cut, hcut, hkeep]
    show Cursor.cut _ (cs ++ rest) = _
    rw [ih hcs, ← past_append, List.singleton_append]

theorem Cursor.after_plain {cs : List Char} (hcs : ∀ c ∈ cs, Plain c) (k : Cursor) :
    k.after cs = k.past cs := by
  induction cs generalizing k with
  | nil => rfl
  | cons c cs ih =>
    obtain ⟨hc, hcs⟩ := List.forall_mem_cons.1 hcs
    obtain ⟨hcut, hkeep⟩ := k.keep_plain hc
    show (k.step c).after cs = _
    rw [step, hcut, hkeep, ih hcs, ← past_append, List.singleton_append]

/-! ### Cursors -/

namespace Cursor

/-- Cursors that cut off segments which are akin from now on.  Inside of a bracket it does not
matter what they last saw, since behind the bracket that is the bracket. -/
structure Akin (k k' : Cursor) : Prop where
  inside : k'.inside = k.inside
  operation : k'.operation = k.operation
  node : ∃ before, Token.Spaces before ∧ k'.segment.node = before ++ k.segment.node
  cutAt? : k.inside = false → ∀ c, Expression.cutAt? k'.previous c = Expression.cutAt? k.previous c

theorem segment_node_keep (k : Cursor) (c : Char) :
    (k.keep c).segment.node = k.segment.node ++ [c].filter inNode := by
  show (c :: k.node).reverse.filter inNode = k.node.reverse.filter inNode ++ _
  rw [List.reverse_cons, List.filter_append]

theorem akin_begin (start start' : Nat) : (begin start).Akin (begin start') :=
  ⟨rfl, rfl, ⟨[], Token.spaces_nil, rfl⟩, fun _ _ => rfl⟩

namespace Akin

variable {k k' : Cursor}

theorem segment (h : k.Akin k') : k.segment.Akin k'.segment := by
  obtain ⟨before, hbefore, hnode⟩ := h.node
  exact ⟨h.operation, before, [], hbefore, Token.spaces_nil, by rw [hnode, List.append_nil]⟩

theorem cut? (h : k.Akin k') (c : Char) : k'.cut? c = k.cut? c := by
  rw [Cursor.cut?, Cursor.cut?, h.inside]
  cases hinside : k.inside with
  | true => rfl
  | false => exact h.cutAt? hinside c

theorem keep (h : k.Akin k') (c : Char) : (k.keep c).Akin (k'.keep c) where
  inside := by rw [Cursor.keep, Cursor.keep, insideAfter, insideAfter, h.inside]
  operation := h.operation
  node := by
    obtain ⟨before, hbefore, hnode⟩ := h.node
    refine ⟨before, hbefore, ?_⟩
    rw [segment_node_keep, segment_node_keep, hnode, List.append_assoc]
  cutAt? := by
    intro hout d
    show Expression.cutAt? (k'.previousAfter c) d = Expression.cutAt? (k.previousAfter c) d
    rw [previousAfter, previousAfter]
    split_ifs with hblank
    · refine h.cutAt? ?_ d
      -- A blank does not close a bracket.
      by_contra hinside
      rw [Cursor.keep, insideAfter_inside (Bool.not_eq_false _ ▸ hinside)] at hout
      obtain rfl : c = ']' := by simpa using hout
      cases hblank
    · rfl

theorem next (k k' : Cursor) (op : Operation) (c : Char) : (k.next op c).Akin (k'.next op c) :=
  ⟨rfl, rfl, ⟨[], Token.spaces_nil, rfl⟩, fun _ _ => rfl⟩

theorem step (h : k.Akin k') (c : Char) : (k.step c).Akin (k'.step c) := by
  rw [Cursor.step, Cursor.step, h.cut? c]
  split
  · exact next k k' _ c
  · exact h.keep c

theorem after (h : k.Akin k') (cs : List Char) : (k.after cs).Akin (k'.after cs) := by
  induction cs generalizing k k' with
  | nil => exact h
  | cons c cs ih => exact ih (h.step c)

/-- What two cursors cut off of a text and of what follows it is akin if the latter is. -/
theorem cut_append (h : k.Akin k') (front : List Char) {cs ds : List Char}
    (hrest : List.Forall₂ Segment.Akin ((k.after front).cut cs) ((k'.after front).cut ds)) :
    List.Forall₂ Segment.Akin (k.cut (front ++ cs)) (k'.cut (front ++ ds)) := by
  induction front generalizing k k' with
  | nil => exact hrest
  | cons c front ih =>
    rw [List.cons_append, List.cons_append, Cursor.cut, Cursor.cut, h.cut? c]
    have hstep : k.after (c :: front) = (k.step c).after front := rfl
    have hstep' : k'.after (c :: front) = (k'.step c).after front := rfl
    rw [hstep, hstep', Cursor.step, Cursor.step, h.cut? c] at hrest
    split
    · rename_i op hcut
      rw [hcut] at hrest
      exact .cons h.segment (ih (next k k' op c) hrest)
    · rename_i hcut
      rw [hcut] at hrest
      exact ih (h.keep c) hrest

/-- **Cursors that are akin cut off segments that are akin.** -/
theorem cut (h : k.Akin k') (cs : List Char) :
    List.Forall₂ Segment.Akin (k.cut cs) (k'.cut cs) := by
  have hcut : List.Forall₂ Segment.Akin (k.cut (cs ++ [])) (k'.cut (cs ++ [])) :=
    h.cut_append cs (.cons (h.after cs).segment .nil)
  rwa [List.append_nil] at hcut

end Akin

variable {origin : Nat} {before : List Char} {k : Cursor}

/-- A cursor knows the text that it has read. -/
theorem At.after (h : k.At origin before) (cs : List Char) :
    (k.after cs).At origin (before ++ cs) := by
  induction cs generalizing k before with
  | nil => rwa [List.append_nil]
  | cons c cs ih =>
    rw [List.append_cons]
    refine ih ?_
    rw [step]
    split
    · rename_i op hcut
      exact h.next (h.divides hcut) op
    · exact h.keep c

end Cursor
end Expression

open Expression in
/-- **Expressions are read alike** if they are balanced alike and cut into segments that are akin
where they are balanced. -/
theorem Chain.reading_congr {s t : String}
    (hbalance : balance false 0 t.toList = balance false 0 s.toList)
    (hcut : balance false 0 s.toList = .ok () →
      List.Forall₂ Segment.Akin ((Cursor.begin (startOf s.toList)).cut (trim s.toList))
        ((Cursor.begin (startOf t.toList)).cut (trim t.toList))) :
    (reading t : Except ParseError.Kind (Chain α)) = reading s := by
  rw [reading, reading, parse, parse, Registry.readChain, Registry.readChain]
  cases hs : balance false 0 s.toList with
  | error kind =>
    rw [hs] at hbalance
    obtain ⟨e, he, hkind⟩ := exists_split_eq_error hs
    obtain ⟨e', he', hkind'⟩ := exists_split_eq_error hbalance
    rw [he, he']
    show Except.error e'.kind = Except.error e.kind
    rw [hkind, hkind']
  | ok u =>
    rw [hs] at hbalance
    have hss := split_eq_ok_iff_balance.2 ⟨hs, rfl⟩
    have hts := split_eq_ok_iff_balance.2 ⟨hbalance, rfl⟩
    rw [hss, hts, Registry.mapError_bind, Registry.mapError_bind]
    show (_ >>= _ : Except ParseError (Chain α)).mapError _ =
      (_ >>= _ : Except ParseError (Chain α)).mapError _
    rw [Registry.mapError_bind, Registry.mapError_bind,
      Registry.mapError_mapM_readLink (hcut hs)]
    congr 1
    funext ls
    cases Registry.chainOf? ls <;> rfl

end DiceFormula
