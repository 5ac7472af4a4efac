/-
# Accepted expressions

An expression is accepted if it can be cut into segments and each segment denotes a link,
which is that its node is a text of the link's pool (`Chain.parse_eq_ok_iff`).

How an accepted expression ends matters to what is written behind it.  The cursor is then
outside of brackets (`Cursor.inside_after`), and if no blank comes last, behind a character
that makes no sign of an operator (`Cursor.closed_after`).  Brackets and parentheses are closed,
so the expression is balanced whatever stands around it (`balanced_of_checkBalance`).

Every character of it is a blank, an operator, a parenthesis or a character that a node can
hold (`Chain.isReadable_of_parse`).
-/

import DiceFormula.Expression.Registry
import DiceFormula.Proofs.Expression.Alphabet
import Mathlib.Data.List.Forall2

namespace DiceFormula

variable {α : Type} [Scalar α]

/-- A segment that holds the operation of a link and a text of its pool. -/
def Segment.Denotes (s : Segment) (l : Link α) : Prop :=
  s.operation = l.operation ∧ Pool.ofNode? (String.ofList s.node) = some l.pool

theorem isBlank_of_isSpace {c : Char} (h : Token.isSpace c = true) : isBlank c = true := by
  simp only [Token.isSpace, Bool.or_eq_true, beq_iff_eq] at h
  rcases h with ((rfl | rfl) | rfl) | rfl <;> rfl

theorem Expression.isBlank_of_isClosing {c : Char} (h : isClosing c = true) :
    isBlank c = false := by
  rw [isClosing, Bool.or_eq_true, Bool.or_eq_true, beq_iff_eq, beq_iff_eq] at h
  rcases h with (h | rfl) | rfl
  · exact isBlank_of_isInert h
  · rfl
  · rfl

/-- The text of a pool consists of tokens. -/
theorem Pool.exists_shape?_of_ofNode? {cs : List Char} {p : Pool α}
    (h : Pool.ofNode? (String.ofList cs) = some p) :
    ∃ shape, Token.shape? cs = some shape ∧ shape.pool? = some p := by
  rwa [ofNode?, String.toList_ofList, Option.bind_eq_some_iff] at h

/-- A node that denotes something is not blank. -/
theorem Segment.Denotes.not_blank {s : Segment} {l : Link α} (h : s.Denotes l) :
    s.node.all isBlank = false := by
  obtain ⟨shape, hshape, -⟩ := Pool.exists_shape?_of_ofNode? h.2
  obtain ⟨rest, ⟨c, ⟨ds, hnode, -⟩, -, hc⟩, -⟩ := Token.exists_reads_of_shape? hshape
  rw [List.all_eq_false]
  refine ⟨c, by rw [hnode]; simp, ?_⟩
  rw [Expression.isBlank_of_isClosing hc]
  exact Bool.false_ne_true

namespace Registry

theorem builtin_readNode? (text : String) :
    (builtin : Registry α).readNode? text = Pool.ofNode? text := by
  have hentries : (builtin : Registry α).entries = [(builtinId, builtinParser)] := rfl
  rw [readNode?, hentries, List.findSome?_cons]
  simp only [builtinParser]
  cases (Pool.ofNode? text : Option (Pool α)) <;> rfl

/-- **A segment is read as the link that it denotes.** -/
theorem readLink_eq_ok_iff {s : Segment} {l : Link α} :
    builtin.readLink s = .ok l ↔ s.Denotes l := by
  constructor
  · intro h
    rw [readLink, readSegment, builtin_readNode?] at h
    split_ifs at h
    · cases h
    · split at h
      · rename_i pool hpool
        cases h
        exact ⟨rfl, hpool⟩
      · cases h
  · intro h
    rw [readLink, readSegment, h.not_blank, builtin_readNode?, h.1, h.2]
    rfl

theorem mapM_readLink_eq_ok_iff {ss : List Segment} {ls : List (Link α)} :
    ss.mapM builtin.readLink = .ok ls ↔ List.Forall₂ Segment.Denotes ss ls := by
  induction ss generalizing ls with
  | nil =>
    rw [List.mapM_nil, List.forall₂_nil_left_iff]
    exact ⟨fun h => (Except.ok.inj h).symm, fun h => congrArg Except.ok h.symm⟩
  | cons s ss ih =>
    rw [List.mapM_cons, List.forall₂_cons_left_iff]
    constructor
    · intro h
      cases hl : (builtin (α := α)).readLink s with
      | error e => rw [hl] at h; cases h
      | ok l =>
        cases hls : ss.mapM (builtin (α := α)).readLink with
        | error e => rw [hl, hls] at h; cases h
        | ok ls' =>
          rw [hl, hls] at h
          exact ⟨l, ls', readLink_eq_ok_iff.1 hl, ih.1 hls, (Except.ok.inj h).symm⟩
    · rintro ⟨l, ls', hl, hls, rfl⟩
      rw [readLink_eq_ok_iff.2 hl, ih.2 hls]
      rfl

end Registry

/-- **What is accepted.**  An expression denotes a chain if its segments denote the links of
the chain. -/
theorem Chain.parse_eq_ok_iff {text : String} {c : Chain α} :
    Chain.parse text = .ok c ↔ ∃ ss ls, Expression.split text.toList = .ok ss ∧
      List.Forall₂ Segment.Denotes ss ls ∧ Registry.chainOf? ls = some c := by
  rw [Chain.parse, Registry.readChain]
  constructor
  · intro h
    cases hss : Expression.split text.toList with
    | error e => rw [hss] at h; cases h
    | ok ss =>
      cases hls : ss.mapM (Registry.builtin (α := α)).readLink with
      | error e => simp only [hss, bind, Except.bind, hls] at h; cases h
      | ok ls =>
        simp only [hss, bind, Except.bind, hls] at h
        refine ⟨ss, ls, rfl, Registry.mapM_readLink_eq_ok_iff.1 hls, ?_⟩
        split at h
        · rename_i c' hc'
          cases h
          exact hc'
        · cases h
  · rintro ⟨ss, ls, hss, hls, hc⟩
    simp only [hss, bind, Except.bind, Registry.mapM_readLink_eq_ok_iff.2 hls, hc]
    rfl

namespace Chain

omit [Scalar α] in
/-- The links of a chain whose head is a plus give the chain. -/
theorem chainOf?_links : ∀ {c : Chain α}, c.first.operation = .plus →
    Registry.chainOf? c.links = some c
  | .head op p, h => by
    obtain rfl : op = .plus := h
    rfl
  | .append front op p, h => by
    obtain ⟨l, ls, hlinks⟩ := List.exists_cons_of_ne_nil front.links_ne_nil
    have hfront := chainOf?_links (c := front) h
    rw [hlinks, Registry.chainOf?, Option.some.injEq, extend] at hfront
    rw [links_append, hlinks, List.cons_append, Registry.chainOf?, extend, List.foldl_append,
      hfront]
    rfl

end Chain

/-! ### Blanks at the ends -/

theorem dropWhile_isBlank_eq_self_iff {cs : List Char} :
    cs.dropWhile isBlank = cs ↔ ∀ c ∈ cs.head?, isBlank c = false := by
  cases cs with
  | nil => exact ⟨fun _ => by rintro _ ⟨⟩, fun _ => rfl⟩
  | cons c cs =>
    cases hc : isBlank c with
    | true =>
      have hle := List.length_dropWhile_le isBlank cs
      rw [List.dropWhile_cons_of_pos hc]
      refine ⟨fun h => ?_, fun h => ?_⟩
      · exact absurd (congrArg List.length h) (by rw [List.length_cons]; omega)
      · rw [h c rfl] at hc
        cases hc
    | false =>
      rw [List.dropWhile_cons_of_neg (by rw [hc]; exact Bool.false_ne_true)]
      refine ⟨fun _ => ?_, fun _ => rfl⟩
      rintro _ ⟨⟩
      exact hc

theorem trimEnd_eq_self_iff {cs : List Char} :
    trimEnd cs = cs ↔ ∀ c ∈ cs.getLast?, isBlank c = false := by
  rw [trimEnd, List.reverse_eq_iff, dropWhile_isBlank_eq_self_iff, List.head?_reverse]

/-- Nothing is trimmed off a text that neither begins nor ends with a blank. -/
theorem trim_eq_self_iff {cs : List Char} :
    trim cs = cs ↔ (∀ c ∈ cs.head?, isBlank c = false) ∧ ∀ c ∈ cs.getLast?, isBlank c = false := by
  constructor
  · intro h
    have hend : trimEnd cs = cs := by
      have hle : cs.length ≤ (cs.reverse.dropWhile isBlank).length := by
        have hstart := List.length_dropWhile_le isBlank (trimEnd cs)
        have hcs : (trimEnd cs).dropWhile isBlank = cs := h
        rwa [hcs, trimEnd, List.length_reverse] at hstart
      have hsuffix := List.dropWhile_suffix isBlank (l := cs.reverse)
      have heq := le_antisymm hsuffix.length_le (by rwa [List.length_reverse])
      rw [trimEnd, hsuffix.eq_of_length heq, List.reverse_reverse]
    rw [trim, hend] at h
    exact ⟨dropWhile_isBlank_eq_self_iff.1 h, trimEnd_eq_self_iff.1 hend⟩
  · rintro ⟨hhead, hlast⟩
    rw [trim, trimEnd_eq_self_iff.2 hlast]
    exact dropWhile_isBlank_eq_self_iff.2 hhead

theorem trim_eq_self {cs : List Char} (hhead : ∃ d ds, cs = d :: ds ∧ isBlank d = false)
    (hlast : ∃ es e, cs = es ++ [e] ∧ isBlank e = false) : trim cs = cs := by
  obtain ⟨d, ds, hhead, hd⟩ := hhead
  obtain ⟨es, e, hlast, he⟩ := hlast
  refine trim_eq_self_iff.2 ⟨?_, ?_⟩
  · rw [hhead]
    rintro _ ⟨⟩
    exact hd
  · rw [hlast, List.getLast?_concat]
    rintro _ ⟨⟩
    exact he

theorem mem_dropWhile {β : Type} {p : β → Bool} {b : β} {bs : List β} (h : b ∈ bs)
    (hb : p b = false) : b ∈ bs.dropWhile p := by
  rw [← List.takeWhile_append_dropWhile (p := p) (l := bs), List.mem_append] at h
  refine h.resolve_left fun hmem => ?_
  rw [List.mem_takeWhile_imp hmem] at hb
  cases hb

/-- Only blanks are trimmed. -/
theorem mem_trim {c : Char} {cs : List Char} (h : c ∈ cs) (hc : isBlank c = false) : c ∈ trim cs :=
  mem_dropWhile (List.mem_reverse.2 (mem_dropWhile (List.mem_reverse.2 h) hc)) hc

/-! ### Balance -/

namespace Expression

theorem checkBalance_outside (parens : List Nat) (position : Nat) (c : Char) (cs : List Char) :
    checkBalance none parens position (c :: cs) =
      if c = '[' then checkBalance (some position) parens (position + c.utf8Size) cs
      else if c = ']' then .error (errorAt .unbalancedBracket position c)
      else if c = '(' then checkBalance none (position :: parens) (position + c.utf8Size) cs
      else if c = ')' then
        match parens with
        | [] => .error (errorAt .unbalancedParenthesis position c)
        | _ :: parens => checkBalance none parens (position + c.utf8Size) cs
      else checkBalance none parens (position + c.utf8Size) cs := by
  cases parens <;> rw [checkBalance]

/-- **What is closed by itself is balanced.**  If a text leaves no bracket and no
parenthesis open, then it can stand behind and in front of other text. -/
theorem exists_checkBalance_append {cs : List Char} :
    ∀ {bracket : Option Nat} {parens : List Nat} {position : Nat},
      checkBalance bracket parens position cs = .ok () →
        ∀ (bracket' : Option Nat) (inner outer : List Nat) (position' : Nat),
          bracket'.isSome = bracket.isSome → inner.length = parens.length →
            ∃ next, ∀ rest, checkBalance bracket' (inner ++ outer) position' (cs ++ rest) =
              checkBalance none outer next rest := by
  induction cs with
  | nil =>
    intro bracket parens position h bracket' inner outer position' hb hi
    cases bracket with
    | some i => cases h
    | none =>
      cases parens with
      | cons i parens => cases h
      | nil =>
        obtain rfl : bracket' = none := by simpa using hb
        obtain rfl : inner = [] := List.length_eq_zero_iff.1 hi
        exact ⟨position', fun rest => rfl⟩
  | cons c cs ih =>
    intro bracket parens position h bracket' inner outer position' hb hi
    cases bracket with
    | some i =>
      obtain ⟨i', rfl⟩ := Option.isSome_iff_exists.1 hb
      rw [checkBalance] at h
      split_ifs at h with h₁ h₂
      · obtain ⟨next, hnext⟩ := ih h none inner outer (position' + c.utf8Size) rfl hi
        refine ⟨next, fun rest => ?_⟩
        rw [List.cons_append, checkBalance, if_neg h₁, if_pos h₂, hnext]
      · obtain ⟨next, hnext⟩ := ih h (some i') inner outer (position' + c.utf8Size) rfl hi
        refine ⟨next, fun rest => ?_⟩
        rw [List.cons_append, checkBalance, if_neg h₁, if_neg h₂, hnext]
    | none =>
      obtain rfl : bracket' = none := by simpa using hb
      rw [checkBalance_outside] at h
      split_ifs at h with h₁ h₂ h₃ h₄
      · obtain ⟨next, hnext⟩ := ih h (some position') inner outer (position' + c.utf8Size) rfl hi
        exact ⟨next, fun rest => by rw [List.cons_append, checkBalance_outside, if_pos h₁, hnext]⟩
      · obtain ⟨next, hnext⟩ := ih h none (position' :: inner) outer (position' + c.utf8Size) rfl
          (by rw [List.length_cons, List.length_cons, hi])
        refine ⟨next, fun rest => ?_⟩
        rw [List.cons_append, checkBalance_outside, if_neg h₁, if_neg h₂, if_pos h₃, ← hnext]
        rfl
      · cases parens with
        | nil => cases h
        | cons j parens =>
          obtain ⟨j', inner, rfl⟩ := List.exists_cons_of_length_eq_add_one hi
          obtain ⟨next, hnext⟩ := ih h none inner outer (position' + c.utf8Size) rfl
            (Nat.succ.inj hi)
          refine ⟨next, fun rest => ?_⟩
          show checkBalance none (j' :: (inner ++ outer)) position' (c :: (cs ++ rest)) = _
          rw [checkBalance_outside, if_neg h₁, if_neg h₂, if_neg h₃, if_pos h₄]
          exact hnext rest
      · obtain ⟨next, hnext⟩ := ih h none inner outer (position' + c.utf8Size) rfl hi
        refine ⟨next, fun rest => ?_⟩
        rw [List.cons_append, checkBalance_outside, if_neg h₁, if_neg h₂, if_neg h₃, if_neg h₄,
          hnext]

/-- A text does not end with a parenthesis that it opens. -/
theorem checkBalance_concat_open (cs : List Char) :
    ∀ (bracket : Option Nat) (parens : List Nat) (position : Nat),
      checkBalance bracket parens position (cs ++ ['(']) ≠ .ok () := by
  induction cs with
  | nil =>
    intro bracket parens position h
    cases bracket <;> cases h
  | cons c cs ih =>
    intro bracket parens position
    rw [List.cons_append]
    cases bracket with
    | some i =>
      rw [checkBalance]
      split_ifs
      · rintro ⟨⟩
      · exact ih _ _ _
      · exact ih _ _ _
    | none =>
      rw [checkBalance_outside]
      split_ifs
      · exact ih _ _ _
      · rintro ⟨⟩
      · exact ih _ _ _
      · cases parens with
        | nil => rintro ⟨⟩
        | cons j parens => exact ih _ _ _
      · exact ih _ _ _

theorem balanced_of_checkBalance {cs : List Char} {position : Nat}
    (h : checkBalance none [] position cs = .ok ()) : Balanced cs :=
  fun parens position' => exists_checkBalance_append h none [] parens position' rfl rfl

theorem Balanced.checkBalance_eq {cs : List Char} (h : Balanced cs) (position : Nat) :
    checkBalance none [] position cs = .ok () := by
  obtain ⟨next, hnext⟩ := h [] position
  have hend := hnext []
  rwa [List.append_nil] at hend

/-! ### Where the cursor ends -/

namespace Cursor

/-- The cursor once `c` is read. -/
def step (k : Cursor) (c : Char) : Cursor :=
  match k.cut? c with
  | some op => k.next op c
  | none => k.keep c

/-- The cursor once `cs` is read. -/
def after (k : Cursor) (cs : List Char) : Cursor := cs.foldl step k

theorem after_concat (k : Cursor) (cs : List Char) (c : Char) :
    k.after (cs ++ [c]) = (k.after cs).step c := by
  rw [after, List.foldl_append]
  rfl

theorem exists_reads (k : Cursor) (cs : List Char) : ∃ ss, k.Reads cs ss (k.after cs) := by
  induction cs generalizing k with
  | nil => exact ⟨[], .nil k⟩
  | cons c cs ih =>
    obtain ⟨ss, hss⟩ := ih (k.step c)
    have hafter : k.after (c :: cs) = (k.step c).after cs := rfl
    rw [hafter]
    cases hcut : k.cut? c with
    | some op =>
      have hstep : k.step c = k.next op c := by rw [step, hcut]
      rw [hstep] at hss ⊢
      exact ⟨_, (Reads.next hcut).append hss⟩
    | none =>
      have hstep : k.step c = k.keep c := by rw [step, hcut]
      rw [hstep] at hss ⊢
      exact ⟨_, (Reads.keep hcut).append hss⟩

theorem exists_ofSymbol?_of_cut? {k : Cursor} {c : Char} {op : Operation}
    (h : k.cut? c = some op) : ∃ op', Operation.ofSymbol? c = some op' := by
  cases hop : Operation.ofSymbol? c with
  | some op' => exact ⟨op', rfl⟩
  | none => simp [cut?, cutAt?, hop] at h

/-- Every character is an operator that cuts, or part of a segment. -/
theorem exists_mem_cut {c : Char} {cs : List Char} : ∀ {k : Cursor}, c ∈ k.node ∨ c ∈ cs →
    (∃ op, Operation.ofSymbol? c = some op) ∨ ∃ s ∈ k.cut cs, c ∈ s.text := by
  induction cs with
  | nil =>
    intro k h
    have hnode : c ∈ k.node := h.resolve_right List.not_mem_nil
    exact .inr ⟨k.segment, List.mem_singleton_self _, List.mem_reverse.2 hnode⟩
  | cons d cs ih =>
    intro k h
    rw [cut]
    split
    · rename_i op hcut
      have hrest : c ∈ cs → _ := fun hc => ih (k := k.next op d) (.inr hc)
      rcases h with h | h
      · exact .inr ⟨k.segment, List.mem_cons_self, List.mem_reverse.2 h⟩
      · rcases List.mem_cons.1 h with rfl | h
        · exact .inl (exists_ofSymbol?_of_cut? hcut)
        · obtain hop | ⟨s, hs, hc⟩ := hrest h
          · exact .inl hop
          · exact .inr ⟨s, List.mem_cons_of_mem _ hs, hc⟩
    · refine ih ?_
      rcases h with h | h
      · exact .inl (List.mem_cons_of_mem d h)
      · rcases List.mem_cons.1 h with rfl | h
        · exact .inl List.mem_cons_self
        · exact .inr h

/-- **Brackets are closed at the end.** -/
theorem inside_after {cs : List Char} :
    ∀ {k : Cursor} {bracket : Option Nat} {parens : List Nat} {position : Nat},
      checkBalance bracket parens position cs = .ok () → k.inside = bracket.isSome →
        (k.after cs).inside = false := by
  induction cs with
  | nil =>
    intro k bracket parens position h hk
    cases bracket with
    | some i => cases h
    | none => exact hk
  | cons c cs ih =>
    intro k bracket parens position h hk
    show ((k.step c).after cs).inside = false
    cases bracket with
    | some i =>
      have hstep : k.step c = k.keep c := by rw [step, cut?, hk]; rfl
      rw [checkBalance] at h
      split_ifs at h with h₁ h₂
      · exact ih h (by rw [hstep, keep, insideAfter_inside hk, h₂]; rfl)
      · exact ih h (by rw [hstep, keep, insideAfter_inside hk]; exact bne_iff_ne.2 h₂)
    | none =>
      have houtside : (k.step c).inside = (c == '[') := by
        rw [step]
        split
        · rename_i op hcut
          obtain ⟨op', hop⟩ := exists_ofSymbol?_of_cut? hcut
          refine (beq_false_of_ne ?_).symm
          rintro rfl
          cases hop
        · exact insideAfter_outside hk c
      rw [checkBalance_outside] at h
      split_ifs at h with h₁ h₂ h₃ h₄
      · exact ih h (by rw [houtside, h₁]; rfl)
      · exact ih h (by rw [houtside]; exact beq_false_of_ne h₁)
      · cases parens with
        | nil => cases h
        | cons j parens => exact ih h (by rw [houtside]; exact beq_false_of_ne h₁)
      · exact ih h (by rw [houtside]; exact beq_false_of_ne h₁)

/-- **An accepted node ends with no character that makes a sign of an operator,** if no blank
comes last. -/
theorem closed_after {cs : List Char} {c : Char} (hc : isBlank c = false) {position : Nat}
    (hbalance : checkBalance none [] position (cs ++ [c]) = .ok ()) {k : Cursor} {l : Link α}
    (h : (k.after (cs ++ [c])).segment.Denotes l) : (k.after (cs ++ [c])).Closed := by
  rw [after_concat, step] at h ⊢
  split at h
  · -- An operator leaves an empty node behind it.
    have hblank := h.not_blank
    cases hblank
  · refine ⟨c, by rw [keep, previousAfter, hc]; rfl, ?_⟩
    by_cases hnode : inNode c = true
    · obtain ⟨shape, hshape, -⟩ := Pool.exists_shape?_of_ofNode? h.2
      have hconcat : ((k.after cs).keep c).segment.node =
          (k.after cs).node.reverse.filter inNode ++ [c] := by
        show (c :: (k.after cs).node).reverse.filter inNode = _
        rw [List.reverse_cons, List.filter_append, List.filter_singleton, hnode]
        rfl
      rw [hconcat] at hshape
      refine Token.isClosing_of_shape?_concat hshape ?_
      by_contra hspace
      rw [isBlank_of_isSpace (Bool.not_eq_false _ ▸ hspace)] at hc
      cases hc
    · rw [inNode_iff, not_and_or, not_not, not_not] at hnode
      rcases hnode with rfl | rfl
      · exact absurd hbalance (checkBalance_concat_open cs none [] position)
      · rfl

end Cursor

/-- A balanced text is split where it is cut. -/
theorem split_eq_ok_iff {cs : List Char} {ss : List Segment} :
    split cs = .ok ss ↔ checkBalance none [] (startOf cs) (trim cs) = .ok () ∧
      ss = (Cursor.begin (startOf cs)).cut (trim cs) := by
  rw [split]
  cases checkBalance none [] (startOf cs) (trim cs) with
  | error e => exact ⟨by rintro ⟨⟩, by rintro ⟨⟨⟩, -⟩⟩
  | ok u => exact ⟨fun h => ⟨rfl, (Except.ok.inj h).symm⟩, fun h => congrArg Except.ok h.2.symm⟩

/-! ### What is in it -/

/-- A character that an accepted expression can hold. -/
def isReadable (c : Char) : Bool :=
  isBlank c || Token.isLegible c || (Operation.ofSymbol? c).isSome || !inNode c

end Expression

open Expression in
/-- **What is accepted is readable.** -/
theorem Chain.isReadable_of_parse {s : String} {c : Chain α} (h : Chain.parse s = .ok c) :
    ∀ d ∈ s.toList, isReadable d = true := by
  intro d hd
  obtain ⟨ss, ls, hsplit, hss, -⟩ := parse_eq_ok_iff.1 h
  obtain ⟨-, rfl⟩ := split_eq_ok_iff.1 hsplit
  cases hblank : isBlank d with
  | true => rw [isReadable, hblank]; rfl
  | false =>
    obtain ⟨op, hop⟩ | ⟨t, ht, hdt⟩ := Cursor.exists_mem_cut
      (k := .begin (startOf s.toList)) (.inr (mem_trim hd hblank))
    · rw [isReadable, hop]
      simp
    · cases hnode : inNode d with
      | false => rw [isReadable, hnode]; simp
      | true =>
        have hshapes := ((List.forall₂_and_left _ ls).1 (hss.imp fun t l hl =>
          ⟨(Pool.exists_shape?_of_ofNode? hl.2).imp fun _ h => h.1, hl⟩)).1
        obtain ⟨shape, hshape⟩ := hshapes t ht
        have hlegible := Token.isLegible_of_shape? hshape d (List.mem_filter.2 ⟨hdt, hnode⟩)
        rw [isReadable, hlegible]
        simp

end DiceFormula
