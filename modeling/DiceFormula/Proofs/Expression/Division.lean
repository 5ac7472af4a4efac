/-
# An expression is divided at its operators

Cutting an expression loses nothing of it but the operators between the segments, and it cuts
at every operator at top level and nowhere else (`split_isDivision`).

An operator is at top level if no bracket is open in front of it and it is no sign, which a
plus or a minus is at the start, behind another operator or behind a comma (`Divides`).  All of
this is said of the text in front of the character.  A cursor knows that text by three things
only (`Cursor.At`), and all of them can be read off the text:

| the cursor holds | of the text in front |
| --- | --- |
| whether it is inside | whether a bracket is open |
| the last character that is not blank | the same |
| the start and the text of the segment | what stands behind the last operator that cut |

A cursor also takes an opening bracket in front of a plus or a minus for a reason to read a
sign.  That never decides anything, since behind an opening bracket a bracket is open
(`bracketOpen_of_lastVisible`).  And it looks for the parenthesis of an each operation in front
of the whole text read so far, not of the segment alone; but in front of the segment stands an
operator or nothing, so it finds the same.
-/

import DiceFormula.Proofs.Expression.Place

namespace DiceFormula

namespace Operation

theorem isSome_ofSymbol?_iff {c : Char} :
    (ofSymbol? c).isSome = true ↔ c ∈ ['+', '-', '*', '/'] := by
  unfold ofSymbol?
  split <;> simp_all

/-- What an operator writes, in its each variant if there is one and it is asked for. -/
theorem symbol_of_map_ofSymbol? {c : Char} {each : Prop} [Decidable each] {op : Operation}
    (h : (ofSymbol? c).map (fun op => if each then op.toEach?.getD op else op) = some op) :
    op.symbol = c ∧ (op.isEach = true ↔ (c = '+' ∨ c = '-') ∧ each) := by
  obtain ⟨plain, hplain, rfl⟩ := Option.map_eq_some_iff.1 h
  unfold ofSymbol? at hplain
  split at hplain <;> cases hplain <;> split_ifs with heach <;>
    simp [heach, symbol, isEach, toEach?]

end Operation

namespace Expression

/-- Whether `c`, with `before` in front of it, is a sign: a plus or a minus at the start, behind
an operator or behind a comma. -/
def IsSign (before : List Char) (c : Char) : Prop :=
  (c = '+' ∨ c = '-') ∧ ∀ p, lastVisible before = some p → p ∈ ['+', '-', '*', '/', ',']

/-- Whether `c`, with `before` in front of it, is an operator at top level. -/
structure Divides (before : List Char) (c : Char) : Prop where
  operator : c ∈ ['+', '-', '*', '/']
  outside : bracketOpen before = false
  not_sign : ¬ IsSign before c

/-- In a text that begins at `origin`, one character lies between the segments `s` and `t`.  It
is an operator at top level, and that of `t`; in its each variant if there is one and `s`, blanks
aside, ends with an opening parenthesis. -/
def Joins (origin : Nat) (text : List Char) (s t : Segment) : Prop :=
  ∃ before c after, text = before ++ c :: after ∧ Divides before c ∧
    s.stop = origin + byteLength before ∧ t.start = s.stop + c.utf8Size ∧
    t.operation.symbol = c ∧
    (t.operation.isEach = true ↔
      (c = '+' ∨ c = '-') ∧ (trimEnd s.text).getLast? = some '(')

/-- From `before` on, the segments divide the text at its operators. -/
structure DividesFrom (origin : Nat) (text before : List Char) (ss : List Segment) : Prop where
  spans : ∀ s ∈ ss, StandsAt origin text s.start s.stop s.text
  last : ∃ s, ss.getLast? = some s ∧ s.stop = origin + byteLength text
  joins : ss.IsChain (Joins origin text)
  complete : ∀ front c back, text = front ++ c :: back → before <+: front → Divides front c →
    ∃ s t, [s, t] <:+: ss ∧ s.stop = origin + byteLength front

/-- No operator is left out once the next character is dealt with. -/
theorem DividesFrom.complete_of_concat {origin : Nat} {before rest : List Char} {c : Char}
    {ss ss' : List Segment} (h : DividesFrom origin (before ++ c :: rest) (before ++ [c]) ss)
    (hss : ss <:+ ss')
    (hc : Divides before c → ∃ s t, [s, t] <:+: ss' ∧ s.stop = origin + byteLength before) :
    ∀ front d back, before ++ c :: rest = front ++ d :: back → before <+: front →
      Divides front d → ∃ s t, [s, t] <:+: ss' ∧ s.stop = origin + byteLength front := by
  rintro _ d back htext ⟨middle, rfl⟩ hd
  have hmiddle := htext
  rw [List.append_assoc, List.append_cancel_left_eq] at hmiddle
  cases middle with
  | nil =>
    obtain ⟨rfl, -⟩ := List.cons.inj hmiddle
    rw [List.append_nil] at hd ⊢
    exact hc hd
  | cons e middle =>
    obtain ⟨rfl, -⟩ := List.cons.inj hmiddle
    obtain ⟨s, t, hinfix, hstop⟩ := h.complete _ d back htext ⟨middle, by simp⟩ hd
    exact ⟨s, t, hinfix.trans hss.isInfix, hstop⟩

namespace Cursor

variable {origin : Nat} {before : List Char} {k : Cursor} {c : Char}

/-- A cursor that has read `before` of a text that begins at `origin`. -/
structure At (k : Cursor) (origin : Nat) (before : List Char) : Prop where
  inside : k.inside = bracketOpen before
  previous : k.previous = lastVisible before
  place : ∃ front, before = front ++ k.segment.text ∧ k.start = origin + byteLength front ∧
    lastVisible front ≠ some '('

theorem at_begin (origin : Nat) : (begin origin).At origin [] :=
  ⟨rfl, rfl, [], rfl, rfl, by rintro ⟨⟩⟩

namespace At

theorem stop_eq (h : k.At origin before) : k.segment.stop = origin + byteLength before := by
  obtain ⟨front, hbefore, hstart, -⟩ := h.place
  rw [Segment.stop, show k.segment.start = k.start from rfl, hstart, hbefore, byteLength_append,
    Nat.add_assoc]

/-- The segment that ends at a cursor is a piece of the text. -/
theorem standsAt (h : k.At origin before) (rest : List Char) :
    StandsAt origin (before ++ rest) k.segment.start k.segment.stop k.segment.text := by
  obtain ⟨front, hbefore, hstart, -⟩ := h.place
  exact ⟨front, rest, by rw [← hbefore], hstart, rfl⟩

/-- **The parenthesis of an each operation** ends the segment in front. -/
theorem previous_eq_paren_iff (h : k.At origin before) :
    k.previous = some '(' ↔ (trimEnd k.segment.text).getLast? = some '(' := by
  obtain ⟨front, hbefore, -, hfront⟩ := h.place
  rw [h.previous, getLast?_trimEnd, hbefore, lastVisible_append]
  cases lastVisible k.segment.text with
  | none => simpa using hfront
  | some p => simp

/-- Outside of brackets the cursor takes a character for a sign if it is one. -/
theorem isSign_iff (h : k.At origin before) (hout : bracketOpen before = false) :
    isSign k.previous c = true ↔ IsSign before c := by
  unfold isSign
  rw [h.previous, IsSign, Bool.and_eq_true, Bool.or_eq_true, beq_iff_eq, beq_iff_eq]
  refine and_congr_right fun _ => ?_
  cases hp : lastVisible before with
  | none => simp
  | some p =>
    have hne : p ≠ '[' := by
      rintro rfl
      rw [bracketOpen_of_lastVisible hp] at hout
      cases hout
    simp [hne, or_assoc]

/-- **A cursor cuts at the operators at top level.** -/
theorem isSome_cut?_iff (h : k.At origin before) :
    (k.cut? c).isSome = true ↔ Divides before c := by
  cases hout : bracketOpen before with
  | true =>
    rw [cut?, h.inside, hout]
    refine ⟨by rintro ⟨⟩, fun hc => ?_⟩
    rw [hc.outside] at hout
    cases hout
  | false =>
    rw [cut?_outside (h.inside.trans hout), cutAt?]
    have hsign := h.isSign_iff (c := c) hout
    by_cases hc : isSign k.previous c = true
    · rw [if_pos hc]
      exact ⟨by rintro ⟨⟩, fun hd => absurd (hsign.1 hc) hd.not_sign⟩
    · rw [if_neg hc, Option.isSome_map, Operation.isSome_ofSymbol?_iff]
      exact ⟨fun hop => ⟨hop, hout, fun hs => hc (hsign.2 hs)⟩, fun hd => hd.operator⟩

theorem divides (h : k.At origin before) {op : Operation} (hcut : k.cut? c = some op) :
    Divides before c := by
  rw [← h.isSome_cut?_iff, hcut]
  rfl

/-- The operation that it cuts for. -/
theorem symbol_of_cut? (h : k.At origin before) {op : Operation} (hcut : k.cut? c = some op) :
    op.symbol = c ∧ (op.isEach = true ↔
      (c = '+' ∨ c = '-') ∧ (trimEnd k.segment.text).getLast? = some '(') := by
  have hd := h.divides hcut
  have hsign := mt (h.isSign_iff hd.outside).1 hd.not_sign
  rw [cut?_outside (h.inside.trans hd.outside), cutAt?, if_neg hsign] at hcut
  rw [← h.previous_eq_paren_iff]
  exact Operation.symbol_of_map_ofSymbol? hcut

theorem keep (h : k.At origin before) (c : Char) : (k.keep c).At origin (before ++ [c]) where
  inside := by
    show k.insideAfter c = _
    rw [insideAfter, h.inside, bracketOpen_concat, isBracket]
    cases bracketOpen before <;> by_cases h₁ : c = '[' <;> by_cases h₂ : c = ']' <;> simp_all
  previous := by
    show k.previousAfter c = _
    rw [previousAfter, h.previous, lastVisible_concat]
  place := by
    obtain ⟨front, hbefore, hstart, hfront⟩ := h.place
    have htext : (k.keep c).segment.text = k.segment.text ++ [c] := List.reverse_cons
    exact ⟨front, by rw [htext, ← List.append_assoc, ← hbefore], hstart, hfront⟩

theorem next (h : k.At origin before) (hc : Divides before c) (op : Operation) :
    (k.next op c).At origin (before ++ [c]) := by
  have hvisible : isBlank c = false ∧ isBracket c = false ∧ c ≠ '(' := by
    have hoperator := hc.operator
    simp only [List.mem_cons, List.not_mem_nil, or_false] at hoperator
    rcases hoperator with rfl | rfl | rfl | rfl <;> decide
  obtain ⟨hblank, hbracket, hparen⟩ := hvisible
  have hlast : lastVisible (before ++ [c]) = some c := by rw [lastVisible_concat, hblank]; rfl
  refine ⟨?_, hlast.symm, before ++ [c], (List.append_nil _).symm, ?_, ?_⟩
  · rw [bracketOpen_concat, hbracket, hc.outside]
    rfl
  · rw [byteLength_append, ← Nat.add_assoc, ← h.stop_eq]
    rfl
  · rw [hlast]
    exact fun heq => hparen (Option.some.inj heq)

end At

/-- The first segment that is cut off begins where the cursor's does, and has its operation. -/
theorem exists_cut_eq (k : Cursor) (cs : List Char) :
    ∃ s ss, k.cut cs = s :: ss ∧ s.start = k.start ∧ s.operation = k.operation := by
  induction cs generalizing k with
  | nil => exact ⟨_, _, rfl, rfl, rfl⟩
  | cons c cs ih =>
    rw [cut]
    split
    · exact ⟨_, _, rfl, rfl, rfl⟩
    · exact ih (k.keep c)

/-- **A cursor divides the rest of the text.** -/
theorem At.dividesFrom (h : k.At origin before) (rest : List Char) :
    DividesFrom origin (before ++ rest) before (k.cut rest) := by
  -- On the rest of the text; the text itself stays, and `before` moves along with the cursor.
  induction rest generalizing k before with
  | nil =>
    rw [List.append_nil, cut]
    refine ⟨?_, ⟨k.segment, rfl, h.stop_eq⟩, .singleton _, fun front c back htext hfront => ?_⟩
    · rintro s hs
      obtain rfl := List.mem_singleton.1 hs
      have hstands := h.standsAt []
      rwa [List.append_nil] at hstands
    · have hle := hfront.length_le
      rw [htext, List.length_append, List.length_cons] at hle
      omega
  | cons c rest ih =>
    have htext : before ++ c :: rest = (before ++ [c]) ++ rest := by simp
    rw [cut]
    split
    · rename_i op hcut
      have hc := h.divides hcut
      have hrest := ih (h.next hc op)
      rw [← htext] at hrest
      obtain ⟨s, ss, hss, hstart, hop⟩ := (k.next op c).exists_cut_eq rest
      rw [hss] at hrest ⊢
      refine ⟨List.forall_mem_cons.2 ⟨h.standsAt _, hrest.spans⟩, ?_, .cons_cons ?_ hrest.joins, ?_⟩
      · rw [List.getLast?_cons_cons]
        exact hrest.last
      · exact ⟨before, c, rest, rfl, hc, h.stop_eq, hstart, hop ▸ h.symbol_of_cut? hcut⟩
      · exact hrest.complete_of_concat (List.suffix_cons _ _) fun _ =>
          ⟨k.segment, s, ⟨[], ss, rfl⟩, h.stop_eq⟩
    · rename_i hcut
      have hrest := ih (h.keep c)
      rw [← htext] at hrest
      refine ⟨hrest.spans, hrest.last, hrest.joins,
        hrest.complete_of_concat List.suffix_rfl fun hc => ?_⟩
      rw [← h.isSome_cut?_iff, hcut] at hc
      cases hc

end Cursor

/-- A division of an expression into segments at its operators. -/
structure IsDivision (source : List Char) (ss : List Segment) : Prop where
  /-- The text that is divided is the expression without the blanks at its ends. -/
  trimmed : StandsAt 0 source (startOf source) (startOf source + byteLength (trim source))
    (trim source)
  /-- Each segment is a piece of the expression. -/
  spans : ∀ s ∈ ss, StandsAt 0 source s.start s.stop s.text
  /-- The first one begins where the text begins, and counts as added. -/
  first : ∃ s, ss.head? = some s ∧ s.start = startOf source ∧ s.operation = .plus
  /-- The last one ends where the text ends. -/
  last : ∃ s, ss.getLast? = some s ∧ s.stop = startOf source + byteLength (trim source)
  /-- Between a segment and the next there is one character, an operator at top level. -/
  joins : ss.IsChain (Joins (startOf source) (trim source))
  /-- Every operator at top level is one of these. -/
  complete : ∀ before c after, trim source = before ++ c :: after → Divides before c →
    ∃ s t, [s, t] <:+: ss ∧ s.stop = startOf source + byteLength before

/-- A segment that an expression is cut into is a piece of it. -/
theorem standsAt_of_mem_split {cs : List Char} {ss : List Segment} (h : split cs = .ok ss)
    {s : Segment} (hs : s ∈ ss) : StandsAt 0 cs s.start s.stop s.text := by
  obtain ⟨-, rfl⟩ := split_eq_ok_iff.1 h
  have hdivides := (Cursor.at_begin (startOf cs)).dividesFrom (trim cs)
  exact (standsAt_trim cs).trans (hdivides.spans s hs)

/-- **Cutting loses nothing, and cuts exactly at the operators at top level.** -/
theorem split_isDivision {source : String} {ss : List Segment}
    (h : split source.toList = .ok ss) : IsDivision source.toList ss := by
  have hspans := fun s hs => standsAt_of_mem_split h (s := s) hs
  obtain ⟨-, rfl⟩ := split_eq_ok_iff.1 h
  have hdivides := (Cursor.at_begin (startOf source.toList)).dividesFrom (trim source.toList)
  obtain ⟨s, ss, hss, hstart, hop⟩ :=
    (Cursor.begin (startOf source.toList)).exists_cut_eq (trim source.toList)
  exact ⟨standsAt_trim source.toList, hspans, ⟨s, by rw [hss]; rfl, hstart, hop⟩, hdivides.last,
    hdivides.joins, fun before c after htext => hdivides.complete before c after htext
      List.nil_prefix⟩

/-- The hypothesis of `split_isDivision` is satisfiable: with a letter of two bytes, a sign in
brackets, a sign behind a comma and an operator in parentheses behind a blank. -/
theorem split_isDivision_signs :
    split " ü*[-1] ( -2,-3)/+4".toList = .ok [⟨.plus, 1, "ü".toList⟩,
      ⟨.multiply, 4, "[-1] ( ".toList⟩, ⟨.eachMinus, 12, "2,-3)".toList⟩,
      ⟨.divide, 18, "+4".toList⟩] ∧
    IsDivision " ü*[-1] ( -2,-3)/+4".toList [⟨.plus, 1, "ü".toList⟩,
      ⟨.multiply, 4, "[-1] ( ".toList⟩, ⟨.eachMinus, 12, "2,-3)".toList⟩,
      ⟨.divide, 18, "+4".toList⟩] := by
  have hsplit : split " ü*[-1] ( -2,-3)/+4".toList = .ok [⟨.plus, 1, "ü".toList⟩,
      ⟨.multiply, 4, "[-1] ( ".toList⟩, ⟨.eachMinus, 12, "2,-3)".toList⟩,
      ⟨.divide, 18, "+4".toList⟩] := by
    rw [split_eq_ok_iff]
    decide +kernel
  exact ⟨hsplit, split_isDivision hsplit⟩

end Expression
end DiceFormula
