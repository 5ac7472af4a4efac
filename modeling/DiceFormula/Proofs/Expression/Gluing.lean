/-
# Nodes without their parentheses

The parentheses of a node are left out before its tokens are read, so characters meet that did not
stand side by side.  Here this is compared with a node that has spaces in place of its parentheses
(`Expression.spaced`).  The two are read alike, unless parentheses stand between characters that go
on with a number or a die (`Expression.Glued`): then the characters become parts of one token, and
with spaces between them the node is unknown (`Pool.ofNode?_spaced`).

| node | read as | with spaces |
| --- | --- | --- |
| `2(d6)` | `2d6` | `2 d6` |
| `[1,(2])` | `[1,2]` | `[1, 2]` |
| `d6(3)` | `d63` | unknown |

The parts of a token that spaces cannot stand between are rows of characters, each of which goes
on with the next one (`Token.fuses`); that is all that matters of them (`Token.Respaces`).
-/

import DiceFormula.Proofs.Expression.Akin
import DiceFormula.Proofs.Expression.Links
import DiceFormula.Proofs.Expression.Spelling
import DiceFormula.Proofs.Roll.Outcome

namespace DiceFormula

namespace Token

open Expression (inNode)

/-- A character of a number behind its first. -/
def isNumeric (c : Char) : Bool := c.isDigit || c == '.'

/-- Whether a number or a die can go on from `a` with `b`. -/
def fuses (a b : Char) : Bool := (isNumeric a || a == 'd' || a == '-') && isNumeric b

/-- Characters that go on with one another. -/
structure Fused (cs : List Char) : Prop where
  chain : cs.IsChain fun a b => fuses a b = true
  noSpace : ∀ c ∈ cs, isSpace c = false

theorem isSpace_of_isNumeric {c : Char} (h : isNumeric c = true) : isSpace c = false := by
  rw [isNumeric, Bool.or_eq_true, beq_iff_eq] at h
  rcases h with h | rfl
  · exact isSpace_of_isDigit h
  · rfl

theorem fused_singleton {c : Char} (hc : isSpace c = false) : Fused [c] :=
  ⟨.singleton c, List.forall_mem_singleton.2 hc⟩

theorem fused_of_numeric {cs : List Char} (h : ∀ c ∈ cs, isNumeric c = true) : Fused cs := by
  refine ⟨?_, fun c hc => isSpace_of_isNumeric (h c hc)⟩
  induction cs with
  | nil => exact .nil
  | cons c cs ih =>
    obtain ⟨hc, hcs⟩ := List.forall_mem_cons.1 h
    cases cs with
    | nil => exact .singleton c
    | cons d cs =>
      refine .cons_cons ?_ (ih hcs)
      rw [fuses, hc, hcs d List.mem_cons_self]
      rfl

/-- A minus or the letter of a die goes on with what is numeric. -/
theorem fused_cons {c : Char} (hc : c = 'd' ∨ c = '-') {cs : List Char}
    (h : ∀ d ∈ cs, isNumeric d = true) : Fused (c :: cs) := by
  obtain ⟨hchain, hspace⟩ := fused_of_numeric h
  refine ⟨?_, List.forall_mem_cons.2 ⟨by rcases hc with rfl | rfl <;> rfl, hspace⟩⟩
  cases cs with
  | nil => exact .singleton c
  | cons d cs =>
    refine .cons_cons ?_ hchain
    rw [fuses, h d List.mem_cons_self]
    rcases hc with rfl | rfl <;> rfl

theorem fused_signed (negative : Bool) {cs : List Char} (h : ∀ c ∈ cs, isNumeric c = true) :
    Fused (Exact.signed negative cs) := by
  cases negative with
  | true => exact fused_cons (.inr rfl) h
  | false => exact fused_of_numeric h

theorem isNumeric_of_isDigit {c : Char} (h : c.isDigit = true) : isNumeric c = true := by
  rw [isNumeric, h]
  rfl

theorem Numeral.isNumeric {ds fs cs : List Char} (h : Numeral ds fs cs) :
    ∀ c ∈ cs, isNumeric c = true := by
  cases h with
  | whole hds => exact fun c hc => isNumeric_of_isDigit (hds c hc)
  | pointed hds hfs =>
    intro c hc
    rcases List.mem_append.1 hc with hc | hc
    · exact isNumeric_of_isDigit (hds c hc)
    · rcases List.mem_cons.1 hc with rfl | hc
      · rfl
      · exact isNumeric_of_isDigit (hfs c hc)

theorem Integer.fused {n : Int} {cs : List Char} (h : Integer n cs) : Fused cs := by
  obtain ⟨negative, hds, -, -⟩ := h
  exact fused_signed negative fun c hc => isNumeric_of_isDigit (hds c hc)

/-! ### Other spaces -/

/-- Texts that differ in spaces only, and not inside of what is fused. -/
structure Respaces (R : List Char → List Char → Prop) : Prop where
  append {as bs cs : List Char} (h : R (as ++ bs) cs) :
    ∃ as' bs', cs = as' ++ bs' ∧ R as as' ∧ R bs bs'
  mem {as bs : List Char} (h : R as bs) : ∀ b ∈ bs, b ∈ as ∨ b = ' '
  fused {as bs : List Char} (h : R as bs) (has : Fused as) :
    ∃ s s', InnerSpaces s ∧ InnerSpaces s' ∧ bs = s ++ as ++ s'

theorem InnerSpaces.append {s s' : List Char} (h : InnerSpaces s) (h' : InnerSpaces s') :
    InnerSpaces (s ++ s') :=
  fun c hc => (List.mem_append.1 hc).elim (h c) (h' c)

theorem InnerSpaces.spaces {s : List Char} (h : InnerSpaces s) : Spaces s :=
  fun c hc => isSpace_of_isInnerSpace (h c hc)

namespace Respaces

variable {R : List Char → List Char → Prop} {as bs cs : List Char}

theorem spaces (hR : Respaces R) (h : R as bs) (has : Spaces as) : Spaces bs := by
  intro b hb
  rcases hR.mem h b hb with hmem | rfl
  · exact has b hmem
  · rfl

theorem innerSpaces (hR : Respaces R) (h : R as bs) (has : InnerSpaces as) : InnerSpaces bs := by
  intro b hb
  rcases hR.mem h b hb with hmem | rfl
  · exact has b hmem
  · rfl

/-- With other spaces an integer in an interval is the same. -/
theorem integer (hR : Respaces R) {s s' : List Char} (hs : InnerSpaces s) (hs' : InnerSpaces s')
    {n : Int} (has : Integer n as) (h : R (s ++ as ++ s') bs) :
    ∃ t t', InnerSpaces t ∧ InnerSpaces t' ∧ bs = t ++ as ++ t' := by
  obtain ⟨front, back, rfl, hfront, hback⟩ := hR.append h
  obtain ⟨before, middle, rfl, hbefore, hmiddle⟩ := hR.append hfront
  obtain ⟨t, t', ht, ht', rfl⟩ := hR.fused hmiddle has.fused
  exact ⟨before ++ t, t' ++ back, (hR.innerSpaces hbefore hs).append ht,
    ht'.append (hR.innerSpaces hback hs'), by simp⟩

/-- **With other spaces there is a lexeme of the same token.** -/
theorem lexeme (hR : Respaces R) {t : Token} (has : t.Lexeme as) (h : R as bs) :
    ∃ s as' s', Spaces s ∧ Spaces s' ∧ t.Lexeme as' ∧ bs = s ++ as' ++ s' := by
  have hrow {cs : List Char} (hcs : Fused cs) (ht : t.Lexeme cs) (h : R cs bs) :
      ∃ s as' s', Spaces s ∧ Spaces s' ∧ t.Lexeme as' ∧ bs = s ++ as' ++ s' := by
    obtain ⟨s, s', hs, hs', rfl⟩ := hR.fused h hcs
    exact ⟨s, cs, s', hs.spaces, hs'.spaces, ht, rfl⟩
  cases has with
  | number negative hnumber =>
    exact hrow (fused_signed negative hnumber.isNumeric) (.number negative hnumber) h
  | die hds hne hfit =>
    exact hrow (fused_cons (.inl rfl) fun c hc => isNumeric_of_isDigit (hds c hc))
      (.die hds hne hfit) h
  | @interval min max low high s₁ s₂ s₃ s₄ hmin hmax h₁ h₂ h₃ h₄ =>
    have htext : '[' :: (s₁ ++ low ++ s₂ ++ ',' :: (s₃ ++ high ++ s₄ ++ [']'])) =
        ['['] ++ ((s₁ ++ low ++ s₂) ++ ([','] ++ ((s₃ ++ high ++ s₄) ++ [']']))) := by simp
    rw [htext] at h
    obtain ⟨_, _, rfl, hopen, h⟩ := hR.append h
    obtain ⟨_, _, rfl, hlow, h⟩ := hR.append h
    obtain ⟨_, _, rfl, hcomma, h⟩ := hR.append h
    obtain ⟨_, _, rfl, hhigh, hclose⟩ := hR.append h
    obtain ⟨s, t₁, hs, ht₁, rfl⟩ := hR.fused hopen (fused_singleton rfl)
    obtain ⟨t₂, t₃, ht₂, ht₃, rfl⟩ := hR.integer h₁ h₂ hmin hlow
    obtain ⟨t₄, t₅, ht₄, ht₅, rfl⟩ := hR.fused hcomma (fused_singleton rfl)
    obtain ⟨t₆, t₇, ht₆, ht₇, rfl⟩ := hR.integer h₃ h₄ hmax hhigh
    obtain ⟨t₈, s', ht₈, hs', rfl⟩ := hR.fused hclose (fused_singleton rfl)
    exact ⟨s, _, s', hs.spaces, hs'.spaces, .interval hmin hmax (ht₁.append ht₂) (ht₃.append ht₄)
      (ht₅.append ht₆) (ht₇.append ht₈), by simp⟩

/-- **With other spaces the same tokens are spelled.** -/
theorem spelled (hR : Respaces R) {s : Shape} (has : s.Spelled as) (h : R as bs) :
    s.Spelled bs := by
  cases has with
  | one ht hbefore hafter =>
    obtain ⟨front, after, rfl, hfront, hback⟩ := hR.append h
    obtain ⟨before, middle, rfl, hstart, hmiddle⟩ := hR.append hfront
    obtain ⟨v, cs, v', hv, hv', hcs, rfl⟩ := hR.lexeme ht hmiddle
    have hspelled := Shape.Spelled.one hcs ((hR.spaces hstart hbefore).append hv)
      (hv'.append (hR.spaces hback hafter))
    simpa using hspelled
  | two ht hu hbefore hbetween hafter =>
    obtain ⟨front, after, rfl, hfront, hback⟩ := hR.append h
    obtain ⟨front, second, rfl, hfront, hsecond⟩ := hR.append hfront
    obtain ⟨front, between, rfl, hfront, hgap⟩ := hR.append hfront
    obtain ⟨before, first, rfl, hstart, hfirst⟩ := hR.append hfront
    obtain ⟨v, cs, v', hv, hv', hcs, rfl⟩ := hR.lexeme ht hfirst
    obtain ⟨w, ds, w', hw, hw', hds, rfl⟩ := hR.lexeme hu hsecond
    have hspelled := Shape.Spelled.two hcs hds ((hR.spaces hstart hbefore).append hv)
      ((hv'.append (hR.spaces hgap hbetween)).append hw) (hw'.append (hR.spaces hback hafter))
    simpa using hspelled

end Respaces

/-! ### Spaces that tear -/

/-- Whether spaces in a text stand between characters that are fused.  The last character in front
of the text that is no space is `last`, and `gap` tells whether there are spaces behind it. -/
def torn (last : Option Char) (gap : Bool) : List Char → Bool
  | [] => false
  | c :: cs =>
    if isSpace c then torn last true cs
    else gap && last.any (fuses · c) || torn (some c) false cs

theorem torn_cons {c : Char} (hc : isSpace c = false) (last : Option Char) (gap : Bool)
    (cs : List Char) :
    torn last gap (c :: cs) = (gap && last.any (fuses · c) || torn (some c) false cs) := by
  rw [torn, hc, if_neg Bool.false_ne_true]

theorem torn_spaces {s : List Char} (hs : Spaces s) (last : Option Char) (gap : Bool)
    (cs : List Char) : torn last gap (s ++ cs) = torn last (gap || !s.isEmpty) cs := by
  induction s generalizing gap with
  | nil => rw [List.nil_append, List.isEmpty_nil, Bool.not_true, Bool.or_false]
  | cons c s ih =>
    obtain ⟨hc, hs⟩ := List.forall_mem_cons.1 hs
    rw [List.cons_append, torn, if_pos hc, ih hs]
    cases gap <;> rfl

/-- A text that is not torn inside: of what follows, it depends on the last character in it. -/
def Whole (cs : List Char) : Prop :=
  ∃ a tail b, cs = a :: tail ∧ ∀ last gap rest,
    torn last gap (cs ++ rest) = (gap && last.any (fuses · a) || torn (some b) false rest)

theorem whole_of_noSpace {a : Char} {cs : List Char} (h : ∀ c ∈ a :: cs, isSpace c = false) :
    Whole (a :: cs) := by
  obtain ⟨ha, hcs⟩ := List.forall_mem_cons.1 h
  induction cs generalizing a with
  | nil => exact ⟨a, [], a, rfl, fun last gap rest => torn_cons ha last gap rest⟩
  | cons c cs ih =>
    obtain ⟨hc, -⟩ := List.forall_mem_cons.1 hcs
    obtain ⟨_, _, b, heq, hrest⟩ := ih hcs hc fun d hd => hcs d (List.mem_cons_of_mem c hd)
    obtain ⟨rfl, rfl⟩ := List.cons.inj heq
    refine ⟨a, c :: cs, b, rfl, fun last gap rest => ?_⟩
    rw [List.cons_append, torn_cons ha, hrest, Bool.false_and, Bool.false_or]

theorem fuses_of_not_numeric {b : Char} (hb : isNumeric b = false) (a : Char) :
    fuses a b = false := by
  rw [fuses, hb, Bool.and_false]

theorem Integer.whole {n : Int} {cs : List Char} (h : Integer n cs) : Whole cs := by
  have hspace := h.fused.noSpace
  obtain ⟨a, tail, rfl, -⟩ := h.exists_cons
  exact whole_of_noSpace hspace

/-- **A lexeme is not torn.** -/
theorem Lexeme.whole {t : Token} {cs : List Char} (h : t.Lexeme cs) : Whole cs := by
  have hrow {cs : List Char} (hcs : Fused cs) (h : t.Lexeme cs) : Whole cs := by
    have hspace := hcs.noSpace
    obtain ⟨a, tail, rfl, -⟩ := h.exists_cons
    exact whole_of_noSpace hspace
  cases h with
  | number negative hnumber =>
    exact hrow (fused_signed negative hnumber.isNumeric) (.number negative hnumber)
  | die hds hne hfit =>
    exact hrow (fused_cons (.inl rfl) fun c hc => isNumeric_of_isDigit (hds c hc))
      (.die hds hne hfit)
  | @interval min max low high s₁ s₂ s₃ s₄ hmin hmax h₁ h₂ h₃ h₄ =>
    obtain ⟨a, as, a', hlow, hlow'⟩ := hmin.whole
    obtain ⟨b, bs, b', hhigh, hhigh'⟩ := hmax.whole
    refine ⟨'[', _, ']', rfl, fun last gap rest => ?_⟩
    have hopen (c : Char) : fuses '[' c = false := rfl
    have hcomma (c : Char) : fuses ',' c = false := rfl
    have hcomma' (c : Char) : fuses c ',' = false := fuses_of_not_numeric rfl c
    have hclose (c : Char) : fuses c ']' = false := fuses_of_not_numeric rfl c
    simp only [List.cons_append, List.append_assoc, List.nil_append]
    rw [torn_cons rfl, torn_spaces h₁.spaces, hlow', torn_spaces h₂.spaces, torn_cons rfl,
      torn_spaces h₃.spaces, hhigh', torn_spaces h₄.spaces, torn_cons rfl]
    simp only [Option.any_some, hopen, hcomma, hcomma', hclose, Bool.and_false, Bool.false_or]

/-- **What is spelled as one token or two is not torn,** if the second is not a number. -/
theorem Shape.Spelled.not_torn {s : Shape} {cs : List Char} (h : s.Spelled cs) (hs : s.Rolls) :
    torn none false cs = false := by
  have hend {after : List Char} (hafter : Spaces after) (last : Option Char) (gap : Bool) :
      torn last gap after = false := by
    have h := torn_spaces hafter last gap []
    rwa [List.append_nil] at h
  cases h with
  | one ht hbefore hafter =>
    obtain ⟨a, tail, b, -, hwhole⟩ := ht.whole
    rw [List.append_assoc, torn_spaces hbefore, hwhole, hend hafter]
    simp
  | two ht hu hbefore hbetween hafter =>
    obtain ⟨a, tail, b, -, hwhole⟩ := ht.whole
    obtain ⟨c, tail', d, hds, hwhole'⟩ := hu.whole
    have hc : isNumeric c = false := by
      have hstops := hu.stops_append hs []
      rw [hds, List.cons_append] at hstops
      have hpoint : c ≠ '.' := fun h => hstops.point (congrArg some h)
      rw [isNumeric, hstops.digit c rfl, beq_false_of_ne hpoint]
      rfl
    rw [List.append_assoc, List.append_assoc, List.append_assoc, torn_spaces hbefore, hwhole,
      torn_spaces hbetween, hwhole', hend hafter, Option.any_some, fuses_of_not_numeric hc]
    simp

theorem inNode_of_fuses {a b : Char} (h : fuses a b = true) : inNode a = true ∧ inNode b = true := by
  have hnumeric {c : Char} (hc : isNumeric c = true) : inNode c = true := by
    rw [isNumeric, Bool.or_eq_true, beq_iff_eq] at hc
    rw [Expression.inNode_iff]
    constructor <;> rintro rfl <;> rcases hc with hc | hc <;> cases hc
  rw [fuses, Bool.and_eq_true, Bool.or_eq_true, Bool.or_eq_true, beq_iff_eq, beq_iff_eq] at h
  obtain ⟨ha, hb⟩ := h
  refine ⟨?_, hnumeric hb⟩
  rcases ha with (ha | rfl) | rfl
  · exact hnumeric ha
  · rfl
  · rfl

/-- Spaces between characters that are fused tear. -/
theorem torn_of_fuses {a b : Char} (h : fuses a b = true) {s : List Char} (hs : Spaces s)
    (hne : s ≠ []) (back front : List Char) (last : Option Char) (gap : Bool) :
    torn last gap (front ++ a :: (s ++ b :: back)) = true := by
  have hspaces : isSpace a = false ∧ isSpace b = false := by
    rw [fuses, Bool.and_eq_true, Bool.or_eq_true, Bool.or_eq_true, beq_iff_eq, beq_iff_eq] at h
    obtain ⟨ha, hb⟩ := h
    refine ⟨?_, isSpace_of_isNumeric hb⟩
    rcases ha with (ha | rfl) | rfl
    · exact isSpace_of_isNumeric ha
    · rfl
    · rfl
  induction front generalizing last gap with
  | nil =>
    obtain ⟨c, s, rfl⟩ := List.exists_cons_of_ne_nil hne
    rw [List.nil_append, torn_cons hspaces.1, torn_spaces hs, torn_cons hspaces.2,
      Option.any_some, h]
    simp
  | cons c front ih =>
    rw [List.cons_append, torn]
    split_ifs
    · exact ih last true
    · rw [ih (some c) false, Bool.or_true]

end Token

namespace Expression

/-- A node with spaces in place of its parentheses. -/
def spaced (cs : List Char) : List Char := cs.map fun c => if inNode c then c else ' '

/-- Nothing but parentheses stands between two characters of the node, and a number or a die can
go on from the one with the other. -/
def Glued (cs : List Char) : Prop :=
  ∃ front a ps b back, cs = front ++ a :: (ps ++ b :: back) ∧ ps ≠ [] ∧
    (∀ p ∈ ps, inNode p = false) ∧ Token.fuses a b = true

theorem spaced_append (cs ds : List Char) : spaced (cs ++ ds) = spaced cs ++ spaced ds :=
  List.map_append

theorem spaced_of_inNode {cs : List Char} (h : ∀ c ∈ cs, inNode c = true) : spaced cs = cs :=
  (List.map_congr_left fun c hc => if_pos (h c hc)).trans (List.map_id' cs)

theorem innerSpaces_spaced {cs : List Char} (h : ∀ c ∈ cs, inNode c = false) :
    Token.InnerSpaces (spaced cs) := by
  intro c hc
  obtain ⟨d, hd, rfl⟩ := List.mem_map.1 hc
  rw [h d hd]
  rfl

theorem Glued.append_left {cs : List Char} (h : Glued cs) (ds : List Char) : Glued (ds ++ cs) := by
  obtain ⟨front, a, ps, b, back, rfl, h⟩ := h
  exact ⟨ds ++ front, a, ps, b, back, by simp, h⟩

/-- Spaces in place of such parentheses tear. -/
theorem Glued.torn {cs : List Char} (h : Glued cs) : Token.torn none false (spaced cs) = true := by
  obtain ⟨front, a, ps, b, back, rfl, hne, hparens, hfuses⟩ := h
  have htext : spaced (front ++ a :: (ps ++ b :: back)) =
      spaced front ++ a :: (spaced ps ++ b :: spaced back) := by
    simp [spaced, Token.inNode_of_fuses hfuses]
  rw [htext]
  exact Token.torn_of_fuses hfuses (innerSpaces_spaced hparens).spaces (by simpa [spaced]) _ _ _ _

theorem Glued.append_right {cs : List Char} (h : Glued cs) (ds : List Char) :
    Glued (cs ++ ds) := by
  obtain ⟨front, a, ps, b, back, rfl, h⟩ := h
  exact ⟨front, a, ps, b, back ++ ds, by simp, h⟩

/-- What is fused holds no parentheses if it is not glued, but for those at its ends. -/
theorem exists_eq_append_of_not_glued {cs : List Char} {a : Char} (front : List Char)
    (h : ¬ Glued (front ++ a :: cs))
    (hchain : (a :: cs.filter inNode).IsChain fun a b => Token.fuses a b = true) :
    ∃ ps, cs = cs.filter inNode ++ ps ∧ ∀ p ∈ ps, inNode p = false := by
  generalize htail : cs.filter inNode = tail at hchain ⊢
  induction tail generalizing cs a front with
  | nil => exact ⟨cs, rfl, fun p hp => by simpa using List.filter_eq_nil_iff.1 htail p hp⟩
  | cons b tail ih =>
    obtain ⟨ps, cs, rfl, hps, -, rfl⟩ := List.filter_eq_cons_iff.1 htail
    obtain ⟨hfuses, hchain⟩ := List.isChain_cons_cons.1 hchain
    have hparen : ∀ p ∈ ps, inNode p = false := fun p hp => by simpa using hps p hp
    obtain rfl : ps = [] := by
      by_contra hne
      exact h ⟨front, a, ps, b, cs, rfl, hne, hparen, hfuses⟩
    obtain ⟨qs, hqs, hparens⟩ := ih (front ++ [a]) (by simpa using h) rfl hchain
    exact ⟨qs, by rw [List.nil_append, List.cons_append, ← hqs], hparens⟩

/-- **Spaces in place of parentheses** are other spaces, if nothing is glued. -/
theorem respaces_spaced :
    Token.Respaces fun as bs => ∃ cs, ¬ Glued cs ∧ cs.filter inNode = as ∧ spaced cs = bs where
  append := by
    rintro as bs _ ⟨cs, hcs, hfilter, rfl⟩
    obtain ⟨front, back, rfl, hfront, hback⟩ := List.filter_eq_append_iff.1 hfilter
    exact ⟨_, _, spaced_append front back, ⟨front, fun h => hcs (h.append_right back), hfront, rfl⟩,
      back, fun h => hcs (h.append_left front), hback, rfl⟩
  mem := by
    rintro _ _ ⟨cs, -, rfl, rfl⟩ b hb
    obtain ⟨c, hc, rfl⟩ := List.mem_map.1 hb
    cases hparen : inNode c with
    | true => exact .inl (List.mem_filter.2 ⟨hc, hparen⟩)
    | false => exact .inr rfl
  fused := by
    rintro as _ ⟨cs, hcs, rfl, rfl⟩ has
    cases hfilter : cs.filter inNode with
    | nil =>
      have hparens : ∀ c ∈ cs, inNode c = false :=
        fun c hc => by simpa using List.filter_eq_nil_iff.1 hfilter c hc
      exact ⟨spaced cs, [], innerSpaces_spaced hparens, by rintro _ ⟨⟩, by simp⟩
    | cons a tail =>
      obtain ⟨ps, ds, rfl, hps, ha, rfl⟩ := List.filter_eq_cons_iff.1 hfilter
      have hchain := has.chain
      rw [hfilter] at hchain
      obtain ⟨qs, hqs, hparens⟩ := exists_eq_append_of_not_glued ps hcs hchain
      refine ⟨spaced ps, spaced qs, innerSpaces_spaced fun p hp => by simpa using hps p hp,
        innerSpaces_spaced hparens, ?_⟩
      have hnode : spaced (a :: ds.filter inNode) = a :: ds.filter inNode :=
        spaced_of_inNode (List.forall_mem_cons.2 ⟨ha, fun c hc => (List.mem_filter.1 hc).2⟩)
      rw [← hnode, ← spaced_append, ← spaced_append, List.append_assoc, List.cons_append, ← hqs]

/-- **No spaces in place of such** are other spaces. -/
theorem respaces_filter :
    Token.Respaces fun as bs => ∃ cs, spaced cs = as ∧ cs.filter inNode = bs where
  append := by
    rintro as bs _ ⟨cs, hcs, rfl⟩
    obtain ⟨front, back, rfl, hfront, hback⟩ := List.map_eq_append_iff.1 hcs
    exact ⟨_, _, List.filter_append .., ⟨front, hfront, rfl⟩, back, hback, rfl⟩
  mem := by
    rintro _ _ ⟨cs, rfl, rfl⟩ b hb
    obtain ⟨hmem, hparen⟩ := List.mem_filter.1 hb
    exact .inl (List.mem_map.2 ⟨b, hmem, if_pos hparen⟩)
  fused := by
    rintro _ _ ⟨cs, rfl, rfl⟩ has
    have hnode : ∀ c ∈ cs, inNode c = true := by
      intro c hc
      by_contra hparen
      have hspace := has.noSpace _ (List.mem_map.2 ⟨c, hc, if_neg hparen⟩)
      cases hspace
    refine ⟨[], [], by rintro _ ⟨⟩, by rintro _ ⟨⟩, ?_⟩
    rw [spaced_of_inNode hnode, List.filter_eq_self.2 hnode]
    simp

end Expression

open Expression

variable {α : Type} [Scalar α]

/-- **What spaces in place of parentheses change.**  If the parentheses glue characters together,
then with spaces between them the node is unknown; and if not, then it is read alike. -/
theorem Pool.ofNode?_spaced (cs : List Char) :
    (Glued cs → (ofNode? (String.ofList (spaced cs)) : Option (Pool α)) = none) ∧
    (¬ Glued cs → (ofNode? (String.ofList (spaced cs)) : Option (Pool α)) =
      ofNode? (String.ofList (cs.filter inNode))) := by
  constructor
  · intro hglued
    rw [Option.eq_none_iff_forall_ne_some]
    intro p hp
    obtain ⟨s, hs, hpool⟩ := ofNode?_eq_some_iff.1 hp
    have hwhole := hs.not_torn (Token.Shape.rolls_of_pool? hpool)
    rw [hglued.torn] at hwhole
    cases hwhole
  · intro hclear
    ext p
    rw [ofNode?_eq_some_iff, ofNode?_eq_some_iff]
    constructor
    · rintro ⟨s, hs, hp⟩
      exact ⟨s, respaces_filter.spelled hs ⟨cs, rfl, rfl⟩, hp⟩
    · rintro ⟨s, hs, hp⟩
      exact ⟨s, respaces_spaced.spelled hs ⟨cs, hclear, rfl, rfl⟩, hp⟩

/-! ### Nodes that meet -/

namespace Token

theorem Spaces.stops_of_ne_nil {s : List Char} (h : Spaces s) (hne : s ≠ []) (rest : List Char) :
    Stops (s ++ rest) := by
  cases s with
  | nil => exact absurd rfl hne
  | cons c s =>
    have hc := h c List.mem_cons_self
    refine stops_cons (isDigit_of_isSpace hc) ?_ (s ++ rest)
    rintro rfl
    cases hc

/-- The first token of a node, and whether it is the last. -/
theorem Shape.Spelled.exists_first {s : Shape} {cs : List Char} (h : s.Spelled cs) (hs : s.Rolls) :
    ∃ t before text rest, cs = before ++ text ++ rest ∧ Spaces before ∧ t.Lexeme text ∧
      Stops rest ∧ (s = .one t ∧ skip rest = [] ∨ skip rest ≠ []) := by
  cases h with
  | one ht hbefore hafter =>
    exact ⟨_, _, _, _, rfl, hbefore, ht, hafter.stops, .inl ⟨rfl,
      List.dropWhile_eq_nil_iff.2 hafter⟩⟩
  | @two t u cs ds before between after ht hu hbefore hbetween hafter =>
    refine ⟨t, before, cs, between ++ ds ++ after, by simp, hbefore, ht, ?_, .inr ?_⟩
    · rw [List.append_assoc]
      exact hbetween.stops_append (hu.stops_append hs after)
    · obtain ⟨d, tail, rfl, -⟩ := hu.exists_cons
      rw [hu.skip_append hbetween]
      exact List.cons_ne_nil d _

/-- **With spaces between them two nodes are read as two tokens,** if they are read at all, each
of which is a node. -/
theorem Shape.Spelled.of_meets {s t u : Shape} {xs ws ys : List Char} (hs : s.Spelled xs)
    (ht : t.Spelled ys) (hs' : s.Rolls) (ht' : t.Rolls) (hws : Spaces ws) (hne : ws ≠ [])
    (hu : shape? (xs ++ ws ++ ys) = some u) :
    ∃ a b, s = .one a ∧ t = .one b ∧ u = .two a b := by
  obtain ⟨b, before', bs, rest, rfl, hbefore', hb, hrest, hlast⟩ := ht.exists_first ht'
  cases hs with
  | @one a as before after ha hbefore hafter =>
    have hgap := (hafter.append hws).append hbefore'
    have hstops := hws.stops_of_ne_nil hne (before' ++ bs ++ rest)
    have hread := shape?_of_lexemes ha hb hbefore hgap rest
      (by simpa using hafter.stops_append hstops) hrest
    have htext : before ++ as ++ after ++ ws ++ (before' ++ bs ++ rest) =
        before ++ as ++ (after ++ ws ++ before' ++ bs ++ rest) := by simp
    rw [htext, hread] at hu
    split_ifs at hu with hempty
    obtain ⟨rfl, -⟩ := hlast.resolve_right fun h => h (List.isEmpty_iff.1 hempty)
    exact ⟨a, b, rfl, rfl, (Option.some.inj hu).symm⟩
  | @two a c as cs before between after ha hc hbefore hbetween hafter =>
    -- There are more tokens behind the second one.
    have hstops := hafter.stops_append (hws.stops_of_ne_nil hne (before' ++ bs ++ rest))
    have hstops' : Stops (between ++ cs ++ (after ++ (ws ++ (before' ++ bs ++ rest)))) := by
      rw [List.append_assoc]
      exact hbetween.stops_append (hc.stops_append hs' _)
    have hread := shape?_of_lexemes ha hc hbefore hbetween _ hstops' hstops
    have htext : before ++ as ++ between ++ cs ++ after ++ ws ++ (before' ++ bs ++ rest) =
        before ++ as ++ (between ++ cs ++ (after ++ (ws ++ (before' ++ bs ++ rest)))) := by simp
    have hskip : skip (after ++ (ws ++ (before' ++ bs ++ rest))) = bs ++ rest := by
      have h := hb.skip_append ((hafter.append hws).append hbefore') rest
      simpa using h
    obtain ⟨d, tail, rfl, -⟩ := hb.exists_cons
    rw [htext, hread, hskip] at hu
    cases hu

end Token

/-- **Two nodes that meet at parentheses are one node only as a count and an interval,** unless the
parentheses glue. -/
theorem Pool.of_meets {xs ps ys : List Char} {p q r : Pool α}
    (hx : ofNode? (String.ofList (xs.filter inNode)) = some p)
    (hy : ofNode? (String.ofList (ys.filter inNode)) = some q) (hne : ps ≠ [])
    (hparens : ∀ c ∈ ps, inNode c = false) (hclear : ¬ Glued (xs ++ ps ++ ys))
    (hr : ofNode? (String.ofList ((xs ++ ps ++ ys).filter inNode)) = some r) :
    ∃ d u, p = .single d ∧ q = .single (.uniform u) ∧
      ofCount noCustom d (.uniform u) = .ok r := by
  have hclear' : ¬ Glued xs ∧ ¬ Glued ys :=
    ⟨fun h => hclear ((h.append_right ps).append_right ys), fun h => hclear (h.append_left _)⟩
  rw [← (ofNode?_spaced xs).2 hclear'.1, ofNode?_eq_some_iff] at hx
  rw [← (ofNode?_spaced ys).2 hclear'.2, ofNode?_eq_some_iff] at hy
  rw [← (ofNode?_spaced _).2 hclear, spaced_append, spaced_append] at hr
  obtain ⟨s, hs, hp⟩ := hx
  obtain ⟨t, ht, hq⟩ := hy
  obtain ⟨u, hu, hr⟩ := exists_shape?_of_ofNode? hr
  obtain ⟨a, b, rfl, rfl, rfl⟩ := hs.of_meets ht (Token.Shape.rolls_of_pool? hp)
    (Token.Shape.rolls_of_pool? hq) (innerSpaces_spaced hparens).spaces (by simpa [spaced]) hu
  obtain ⟨d, hd, rfl⟩ := Option.map_eq_some_iff.1 hp
  obtain ⟨e, he, rfl⟩ := Option.map_eq_some_iff.1 hq
  simp only [Token.Shape.pool?, Option.bind_eq_bind, Option.bind_eq_some_iff] at hr
  obtain ⟨v, hv, d', hd', hcount⟩ := hr
  rw [hd] at hd'
  obtain rfl := Option.some.inj hd'
  have hinterval : (b.toDie? : Option (Die α)) = some (.uniform v) := by
    cases b with
    | number l => cases hv
    | die faces | interval min max =>
      rw [Token.toDie?, hv, Option.map_some]
      rintro _ ⟨⟩
  rw [he] at hinterval
  obtain rfl := Option.some.inj hinterval
  exact ⟨d, v, rfl, rfl, toOption_eq_some_iff.1 hcount⟩

/-- Two nodes meet at parentheses, and are not a count and an interval. -/
def Segment.Meets (s : Segment) (p q : Pool α) : Prop :=
  ∃ xs ps ys, s.text = xs ++ ps ++ ys ∧ ps ≠ [] ∧ (∀ c ∈ ps, inNode c = false) ∧
    Pool.ofNode? (String.ofList (xs.filter inNode)) = some p ∧
    Pool.ofNode? (String.ofList (ys.filter inNode)) = some q ∧
    ∀ d u r, p = .single d → q = .single (.uniform u) → Pool.ofCount noCustom d (.uniform u) ≠ .ok r

namespace Chain

/-- **What parentheses glue.**  In an expression that is accepted the pool of a segment is the one
that is read with spaces in place of its parentheses, unless these glue characters together; then
nothing is read with spaces.  And an expression is refused if in one of its segments two nodes meet
at parentheses that do not glue, unless they are a count and an interval, or some segment in front
is refused. -/
theorem parse_spaced (s : String) :
    (∀ c : Chain α, parse s = .ok c → ∃ ss, split s.toList = .ok ss ∧
      List.Forall₂ (fun t l =>
        (Glued t.text → (Pool.ofNode? (String.ofList (spaced t.text)) : Option (Pool α)) = none) ∧
        (¬ Glued t.text → Pool.ofNode? (String.ofList (spaced t.text)) = some l.pool))
        ss c.links) ∧
    ∀ ss t ss' (ls : List (Link α)) (p q : Pool α), split s.toList = .ok (ss ++ t :: ss') →
      List.Forall₂ Segment.Denotes ss ls → t.Meets p q → ¬ Glued t.text →
      (parse s : Except ParseError (Chain α)) = .error (t.error .unknownNode) := by
  constructor
  · intro c hc
    obtain ⟨ss, hsplit, hdenotes⟩ := denotes_of_parse hc
    refine ⟨ss, hsplit, hdenotes.imp ?_⟩
    rintro t l ⟨-, hpool⟩
    obtain ⟨hglued, hclear⟩ := Pool.ofNode?_spaced (α := α) t.text
    refine ⟨hglued, fun h => ?_⟩
    rw [hclear h]
    exact hpool
  · rintro ss t ss' ls p q hsplit hls ⟨xs, ps, ys, htext, hne, hparens, hx, hy, hcount⟩ hclear
    have hnode : t.node = (xs ++ ps ++ ys).filter inNode := by rw [← htext]; rfl
    refine parse_eq_error_of_unknown hsplit hls ?_ ?_
    · have hvisible := Segment.Denotes.not_blank (s := ⟨.plus, 0, xs⟩) (l := ⟨.plus, p⟩) ⟨rfl, hx⟩
      have hfront : (xs.filter inNode).all isBlank = false := hvisible
      rw [hnode, List.filter_append, List.filter_append, List.all_append, List.all_append, hfront]
      rfl
    · rw [hnode, Option.eq_none_iff_forall_ne_some]
      intro r hr
      rw [htext] at hclear
      obtain ⟨d, u, rfl, rfl, hok⟩ := Pool.of_meets hx hy hne hparens hclear hr
      exact hcount d u r rfl rfl hok

/-- The hypotheses of `parse_spaced` are satisfiable: parentheses around a die behind its count, and
a die in parentheses behind an interval that is no count. -/
theorem parse_spaced_counted :
    (∃ c : Chain Float, parse "2(d6)" = .ok c ∧ ∃ t l, split "2(d6)".toList = .ok [t] ∧
      c.links = [l] ∧ ¬ Glued t.text ∧
      Pool.ofNode? (String.ofList (spaced t.text)) = some l.pool) ∧
    ∃ t : Segment, split "[0, 1](d6)".toList = .ok [t] ∧
      (∃ p q : Pool Float, t.Meets p q) ∧ ¬ Glued t.text ∧
      (parse "[0, 1](d6)" : Except ParseError (Chain Float)) = .error (t.error .unknownNode) := by
  constructor
  · have hread : (parse (α := Float) "2(d6)").toOption.isSome = true := by decide +kernel
    obtain ⟨c, hc⟩ := Option.isSome_iff_exists.1 hread
    rw [toOption_eq_some_iff] at hc
    have hsplit : split "2(d6)".toList = .ok [⟨.plus, 0, "2(d6)".toList⟩] := rfl
    have hclear : ¬ Glued "2(d6)".toList := fun h => absurd h.torn (by decide)
    obtain ⟨ss, hss, hlinks⟩ := (parse_spaced "2(d6)").1 c hc
    rw [hsplit] at hss
    obtain rfl := Except.ok.inj hss
    obtain ⟨l, ls, ⟨-, hpool⟩, hnil, hls⟩ := List.forall₂_cons_left_iff.1 hlinks
    cases hnil
    exact ⟨c, hc, _, l, hsplit, hls, hclear, hpool hclear⟩
  · let coin : Uniform := ⟨0, 1, by decide, by decide, by decide⟩
    let d6 : Uniform := .d 6 (by decide)
    have hsplit : split "[0, 1](d6)".toList = .ok ([] ++ ⟨.plus, 0, "[0, 1](d6)".toList⟩ :: []) :=
      rfl
    have hclear : ¬ Glued "[0, 1](d6)".toList := fun h => absurd h.torn (by decide)
    have hmeets : (⟨.plus, 0, "[0, 1](d6)".toList⟩ : Segment).Meets
        (.single (.uniform coin) : Pool Float) (.single (.uniform d6)) := by
      refine ⟨coin.chars, ['('], "d6)".toList, by decide, by decide, List.forall_mem_singleton.2 rfl,
        Pool.ofNode?_chars coin, Pool.ofNode?_chars d6, ?_⟩
      rintro _ _ r ⟨⟩ ⟨⟩ hok
      have hbelow : Scalar.trunc ((Die.uniform coin).bounds noCustom).low <
          (Scalar.ofInt 1 : Float) := by
        decide +kernel
      rw [Pool.ofCount, if_pos hbelow] at hok
      cases hok
    exact ⟨_, hsplit, ⟨_, _, hmeets⟩, hclear,
      (parse_spaced "[0, 1](d6)").2 [] _ [] [] _ _ hsplit .nil hmeets hclear⟩

/-- **Parentheses glue.**  The nodes `d6` and `3` meet at a parenthesis, and are read as a die with
63 faces. -/
theorem not_unknown_of_glued :
    ∃ c : Chain Float, parse "d6(3)" = .ok c ∧ parse "d63" = .ok c ∧
      Glued "d6(3)".toList ∧ (Pool.ofNode? "d6 3 " : Option (Pool Float)) = none ∧
      (Pool.ofNode? "d6" : Option (Pool Float)).isSome = true ∧
      (Pool.ofNode? "3" : Option (Pool Float)).isSome = true := by
  have hread : (parse (α := Float) "d63").toOption.isSome = true := by decide +kernel
  obtain ⟨c, hc⟩ := Option.isSome_iff_exists.1 hread
  rw [toOption_eq_some_iff] at hc
  have hsame : (parse "d6(3)" : Except ParseError (Chain Float)) = parse "d63" := rfl
  exact ⟨c, hsame.trans hc, hc,
    ⟨['d'], '6', ['('], '3', [')'], rfl, by decide, List.forall_mem_singleton.2 rfl, by decide⟩, rfl,
    by decide +kernel, by decide +kernel⟩

end Chain
end DiceFormula
