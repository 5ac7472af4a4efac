/-
# Signs in front of numbers

A plus or a minus at the start of an expression or behind an operator is a sign, and no operator.
If it stands in front of a number that is a node by itself, then it becomes the first character of
that node, and nothing else changes (`Expression.NumberNode.exists_cut`).  What happens then is up
to the tokens: a number may begin with a minus sign, but with no plus.

| in front of the number | the expression |
| --- | --- |
| `-` | is accepted, with the value of this node negated |
| `+` | is refused, since the node is unknown |

So only one of the two signs is read as a sign (`Chain.parse_signed`).
-/

import DiceFormula.Proofs.Expression.Akin
import DiceFormula.Proofs.Expression.Joining
import DiceFormula.Proofs.Expression.Links
import DiceFormula.Proofs.Expression.Spelling
import DiceFormula.Proofs.Number.Arithmetic

namespace DiceFormula

variable {α : Type} [Scalar α]

/-! ### Numbers as nodes -/

namespace Token

/-- The blanks that a node can hold are spaces. -/
theorem isSpace_of_isBlank {c : Char} (h : isBlank c = true) (hc : isLegible c = true) :
    isSpace c = true := by
  simp only [isLegible, Bool.or_eq_true, beq_iff_eq] at hc
  rcases hc with ((((hc | rfl) | rfl) | rfl) | rfl) | hc
  · rw [Expression.isBlank_of_isInert hc] at h
    cases h
  · cases h
  · cases h
  · cases h
  · cases h
  · exact hc

end Token

namespace Token.Numeral

variable {ds fs cs : List Char}

theorem isInert (h : Numeral ds fs cs) : ∀ c ∈ cs, Expression.isInert c = true := by
  cases h with
  | whole hds => exact fun c hc => Expression.isInert_of_isDigit (hds c hc)
  | pointed hds hfs =>
    intro c hc
    rcases List.mem_append.1 hc with hc | hc
    · exact Expression.isInert_of_isDigit (hds c hc)
    · rcases List.mem_cons.1 hc with rfl | hc
      · rfl
      · exact Expression.isInert_of_isDigit (hfs c hc)

theorem ne_nil (h : Numeral ds fs cs) : cs ≠ [] := by
  obtain ⟨c, tail, rfl, -⟩ := h.exists_cons
  exact List.cons_ne_nil c tail

/-- **A number denotes its value,** if that is finite. -/
theorem ofNode?_signed (h : Numeral ds fs cs) (negative : Bool) :
    (Pool.ofNode? (String.ofList (Exact.signed negative cs)) : Option (Pool α)) =
      (Die.ofFixed (Scalar.ofDecimal (.ofParts negative ds fs))).toOption.map Pool.single := by
  have hspelled : (Shape.one (.number (.ofParts negative ds fs))).Spelled
      ([] ++ Exact.signed negative cs ++ []) :=
    .one (.number negative h) (by rintro _ ⟨⟩) (by rintro _ ⟨⟩)
  rw [List.nil_append, List.append_nil] at hspelled
  rw [Pool.ofNode?, String.toList_ofList, hspelled.shape?_eq trivial]
  rfl

/-- **Around a number that is a node there are only spaces,** and the node denotes its value. -/
theorem eq_of_ofNode?_eq_some (h : Numeral ds fs cs) {ws ws' : List Char}
    (hws : ∀ c ∈ ws, isBlank c = true) (hws' : ∀ c ∈ ws', isBlank c = true) {p : Pool α}
    (hp : Pool.ofNode? (String.ofList (ws ++ cs ++ ws')) = some p) :
    Spaces ws ∧ Spaces ws' ∧ Scalar.isFinite (Scalar.ofDecimal (.ofParts false ds fs) : α) = true ∧
      p = .single (.fixed (Scalar.ofDecimal (.ofParts false ds fs))) := by
  obtain ⟨shape, hshape, -⟩ := Pool.exists_shape?_of_ofNode? hp
  have hlegible := isLegible_of_shape? hshape
  have hspaces {vs : List Char} (hvs : ∀ c ∈ vs, isBlank c = true)
      (hsub : vs ⊆ ws ++ cs ++ ws') : Spaces vs :=
    fun c hc => isSpace_of_isBlank (hvs c hc) (hlegible c (hsub hc))
  have hfront := hspaces hws fun c hc => by simp [hc]
  have hback := hspaces hws' fun c hc => by simp [hc]
  rw [Pool.ofNode?_spaces hfront hback] at hp
  have hvalue := h.ofNode?_signed (α := α) false
  rw [Exact.signed, if_neg Bool.false_ne_true, hp, Die.ofFixed] at hvalue
  refine ⟨hfront, hback, ?_⟩
  split_ifs at hvalue with hfinite
  · exact ⟨hfinite, Option.some.inj hvalue⟩
  · cases hvalue

end Token.Numeral

/-- A finite number stays finite when it is negated. -/
theorem Scalar.isFinite_neg {x : Float} (hx : isFinite x = true) : isFinite (-x) = true := by
  obtain ⟨negative, u, hx⟩ := isFinite_iff.1 hx
  exact isFinite_iff.2 ⟨_, _, exact_neg hx⟩

/-- **A number with a minus in front of it denotes the negated value.** -/
theorem Token.Numeral.ofNode?_minus {ds fs cs ws ws' : List Char} (h : Numeral ds fs cs)
    (hws : Spaces ws) (hws' : Spaces ws')
    (hfinite : Scalar.isFinite (Scalar.ofDecimal (.ofParts false ds fs) : Float) = true) :
    Pool.ofNode? (String.ofList (ws ++ '-' :: cs ++ ws')) =
      some (.single (.fixed (-Scalar.ofDecimal (.ofParts false ds fs) : Float))) := by
  have hsigned := h.ofNode?_signed (α := Float) true
  have hdecimal : (Scalar.ofDecimal (.ofParts true ds fs) : Float) =
    -Scalar.ofDecimal (.ofParts false ds fs) := rfl
  rw [hdecimal, Die.ofFixed, if_pos (Scalar.isFinite_neg hfinite)] at hsigned
  rw [Pool.ofNode?_spaces hws hws']
  exact hsigned

/-- No node begins with a plus. -/
theorem Pool.ofNode?_plus {ws : List Char} (hws : Token.Spaces ws) (cs : List Char) :
    (ofNode? (String.ofList (ws ++ '+' :: cs)) : Option (Pool α)) = none := by
  have hskip : Token.skip (ws ++ '+' :: cs) = '+' :: cs :=
    Token.skip_append hws (by rintro _ ⟨⟩; rfl)
  have hnext : Token.next? ('+' :: cs) = none := rfl
  rw [ofNode?, String.toList_ofList, Token.shape?, hskip, hnext]
  rfl

namespace Expression

/-- A segment begins behind this text: it is empty, or ends with an operator at top level. -/
def Begins (front : List Char) : Prop :=
  front = [] ∨ ∃ before o, front = before ++ [o] ∧ Divides before o

/-- A segment ends behind this text: nothing follows, or an operator at top level. -/
def Ends (before rest : List Char) : Prop :=
  rest = [] ∨ ∃ o back, rest = o :: back ∧ Divides before o

/-- An expression with a node that is a number.  In front of the number there are only blanks, and
behind its first character only what belongs to it, blanks and parentheses. -/
structure NumberNode (front ws literal rest ds fs : List Char) : Prop where
  begins : Begins front
  blank : ∀ c ∈ ws, isBlank c = true
  head : ∀ c ∈ literal.head?, inNode c = true
  number : ∃ number ws', literal.filter inNode = number ++ ws' ∧ Token.Numeral ds fs number ∧
    ∀ c ∈ ws', isBlank c = true
  ends : Ends (front ++ ws ++ literal) rest

/-- Where a segment begins the cursor is fresh. -/
theorem Begins.exists_fresh {front : List Char} (h : Begins front) (start : Nat) :
    ∃ ss k op, (Cursor.begin start).Reads front ss k ∧ k.Fresh op ∧ k.At start front := by
  rcases h with rfl | ⟨before, o, rfl, ho⟩
  · exact ⟨[], _, _, .nil _, Cursor.fresh_begin start, Cursor.at_begin start⟩
  · obtain ⟨ss, hreads⟩ := (Cursor.begin start).exists_reads before
    have hat := (Cursor.at_begin start).after before
    rw [List.nil_append] at hat
    obtain ⟨op, hop⟩ := Option.isSome_iff_exists.1 (hat.isSome_cut?_iff.2 ho)
    obtain ⟨rfl, -⟩ := hat.symbol_of_cut? hop
    exact ⟨_, _, op, hreads.append (.next hop), Cursor.Done.fresh_next _ op, hat.next ho op⟩

/-- A segment begins there too when the blanks at the start of the text are gone. -/
theorem Begins.exists_trimStart {front ws : List Char} (h : Begins front)
    (hws : ∀ c ∈ ws, isBlank c = true) :
    ∃ front' ws', Begins front' ∧ (∀ c ∈ ws', isBlank c = true) ∧
      trimStart (front ++ ws) = front' ++ ws' := by
  rcases h with rfl | ⟨before, o, rfl, ho⟩
  · exact ⟨[], [], .inl rfl, by rintro _ ⟨⟩, List.dropWhile_eq_nil_iff.2 hws⟩
  · refine ⟨trimStart before ++ [o], ws, .inr ⟨_, o, rfl, ho.trimStart⟩, hws, ?_⟩
    rw [List.append_assoc, List.singleton_append, trimStart_append_cons ho.isBlank]
    simp

theorem Ends.of_trimStart {before rest : List Char} (h : Ends before rest) :
    Ends (trimStart before) rest := by
  rcases h with rfl | ⟨o, back, rfl, ho⟩
  · exact .inl rfl
  · exact .inr ⟨o, back, rfl, ho.trimStart⟩

/-- Where a segment ends it is cut off, and what follows depends on no more than the cursor knows
of the text in front. -/
theorem Ends.exists_cut {before rest : List Char} (h : Ends before rest) {origin : Nat}
    {k : Cursor} (hk : k.At origin before) :
    ∃ back, k.cut rest = k.segment :: back ∧
      ∀ k' : Cursor, k'.inside = k.inside → k'.previous = k.previous →
        ∃ back', k'.cut rest = k'.segment :: back' ∧
          back'.map Segment.content = back.map Segment.content := by
  rcases h with rfl | ⟨o, back, rfl, ho⟩
  · exact ⟨[], rfl, fun k' _ _ => ⟨[], rfl, rfl⟩⟩
  · obtain ⟨op, hop⟩ := Option.isSome_iff_exists.1 (hk.isSome_cut?_iff.2 ho)
    refine ⟨(k.next op o).cut back, by rw [Cursor.cut, hop], fun k' hinside hprevious => ?_⟩
    have hop' : k'.cut? o = some op := by
      rw [Cursor.cut?, hinside, hprevious]
      exact hop
    exact ⟨(k'.next op o).cut back, by rw [Cursor.cut, hop'],
      (Cursor.Alike.next k' k op o).cut back⟩

/-- What a cursor saw last is in the text behind a character that is not blank. -/
theorem Cursor.previous_past_cons {c : Char} (hc : isBlank c = false) (cs : List Char)
    (k : Cursor) : (k.past (c :: cs)).previous = lastVisible (c :: cs) := by
  have hvisible : lastVisible [c] = some c := by
    rw [lastVisible, List.filter_singleton, hc]
    rfl
  rw [past, ← List.singleton_append, lastVisible_append, hvisible]
  cases lastVisible cs <;> rfl

/-- A sign is a visible character of its node, and no bracket. -/
theorem visible_of_sign {c : Char} (hc : c = '+' ∨ c = '-') :
    isBlank c = false ∧ inNode c = true ∧ isBracket c = false := by
  rcases hc with rfl | rfl <;> exact ⟨rfl, rfl, rfl⟩

/-- At the start of a segment and behind blanks a sign is kept. -/
theorem Cursor.Fresh.cut?_sign {k : Cursor} {op : Operation} (hk : k.Fresh op) {ws : List Char}
    (hws : ∀ c ∈ ws, isBlank c = true) {c : Char} (hc : c = '+' ∨ c = '-') :
    (k.past ws).cut? c = none := by
  have hprevious : (k.past ws).previous = k.previous := by
    rw [past, lastVisible_of_isBlank hws, Option.none_or]
  have houtside : (k.past ws).inside = false := hk.outside
  have hminus := hk.sign
  have hsign : isSign k.previous c = true := by
    rcases hc with rfl | rfl <;> exact hminus
  rw [cut?_outside houtside, hprevious, cutAt?, if_pos hsign]

/-- If blanks stand behind a number, then only they are lost at its end. -/
theorem exists_filter_trimEnd {ds fs number ws : List Char} (hnumber : Token.Numeral ds fs number)
    (hws : ∀ c ∈ ws, isBlank c = true) {c : Char} {tail : List Char}
    (hfilter : (c :: tail).filter inNode = number ++ ws) :
    ∃ ws', (c :: trimEnd tail).filter inNode = number ++ ws' ∧ ∀ d ∈ ws', isBlank d = true := by
  obtain ⟨before, d, hconcat⟩ := (List.eq_nil_or_concat' number).resolve_left hnumber.ne_nil
  have hd := isBlank_of_isInert (hnumber.isInert d (by simp [hconcat]))
  obtain ⟨vs, hvs, htail⟩ := exists_eq_trimEnd_append_blanks tail
  rw [htail, ← List.cons_append, List.filter_append, hconcat] at hfilter
  obtain ⟨ws', hfilter', hsplit⟩ := Token.exists_append_of_blanks hd
    (fun e he => hvs e (List.mem_of_mem_filter he)) hfilter
  exact ⟨ws', by rw [hfilter', hconcat], fun e he => hws e (by simp [hsplit, he])⟩

namespace NumberNode

variable {front ws literal rest ds fs : List Char}

/-- The first character is that of the number. -/
theorem exists_cons (h : NumberNode front ws literal rest ds fs) :
    ∃ c tail, literal = c :: tail ∧ isInert c = true := by
  obtain ⟨number, ws', hfilter, hnumber, -⟩ := h.number
  obtain ⟨d, ds', rfl, -⟩ := hnumber.exists_cons
  cases literal with
  | nil => cases hfilter
  | cons c tail =>
    rw [List.filter_cons_of_pos (h.head c rfl)] at hfilter
    obtain ⟨rfl, -⟩ := List.cons.inj hfilter
    exact ⟨c, tail, rfl, hnumber.isInert c List.mem_cons_self⟩

/-- Nothing in it cuts. -/
theorem plain (h : NumberNode front ws literal rest ds fs) : ∀ c ∈ literal, Plain c := by
  obtain ⟨number, ws', hfilter, hnumber, hws'⟩ := h.number
  intro c hc
  cases hparen : inNode c with
  | false => exact plain_of_paren hparen
  | true =>
    have hmem : c ∈ number ++ ws' := hfilter ▸ List.mem_filter.2 ⟨hc, hparen⟩
    rcases List.mem_append.1 hmem with hc | hc
    · exact plain_of_isInert (hnumber.isInert c hc)
    · exact plain_of_isBlank (hws' c hc)

/-- The same node of the expression without the blanks at its ends. -/
theorem exists_trim (h : NumberNode front ws literal rest ds fs) :
    ∃ front' ws' literal' rest', NumberNode front' ws' literal' rest' ds fs ∧
      trimStart (front ++ ws) = front' ++ ws' ∧
      trim (front ++ ws ++ literal ++ rest) = front' ++ ws' ++ literal' ++ rest' ∧
      ∀ c, isBlank c = false →
        trim (front ++ ws ++ c :: literal ++ rest) = front' ++ ws' ++ c :: literal' ++ rest' := by
  obtain ⟨n, tail, rfl, hn⟩ := h.exists_cons
  have hvisible := isBlank_of_isInert hn
  obtain ⟨front', ws₁, hbegins, hws₁, hfront⟩ := h.begins.exists_trimStart h.blank
  have hback : ∃ tail' rest', trimEnd (tail ++ rest) = tail' ++ rest' ∧
      (∃ number ws', (n :: tail').filter inNode = number ++ ws' ∧ Token.Numeral ds fs number ∧
        ∀ c ∈ ws', isBlank c = true) ∧ Ends (front ++ ws ++ n :: tail') rest' := by
    obtain ⟨number, ws', hfilter, hnumber, hws'⟩ := h.number
    rcases h.ends with rfl | ⟨o, back, rfl, ho⟩
    · obtain ⟨ws₂, hfilter₂, hws₂⟩ := exists_filter_trimEnd hnumber hws' hfilter
      exact ⟨trimEnd tail, [], by rw [List.append_nil, List.append_nil],
        ⟨number, ws₂, hfilter₂, hnumber, hws₂⟩, .inl rfl⟩
    · exact ⟨tail, o :: trimEnd back, trimEnd_append_cons ho.isBlank tail back,
        ⟨number, ws', hfilter, hnumber, hws'⟩, .inr ⟨o, _, rfl, ho⟩⟩
  obtain ⟨tail', rest', hback, hnumber, hends⟩ := hback
  have hends' := hends.of_trimStart
  rw [trimStart_append_cons hvisible, hfront] at hends'
  refine ⟨front', ws₁, n :: tail', rest', ⟨hbegins, hws₁, h.head, hnumber, hends'⟩, hfront, ?_, ?_⟩
  · rw [List.append_assoc (front ++ ws), List.cons_append, trim_append_cons hvisible, hfront, hback]
    simp
  · intro c hc
    rw [List.append_assoc (front ++ ws), List.cons_append, List.cons_append, trim_append_cons hc,
      ← List.nil_append (n :: _), trimEnd_append_cons hvisible, hfront, hback]
    simp

/-- **A sign in front of the number begins its segment,** and nothing else changes. -/
theorem exists_cut (h : NumberNode front ws literal rest ds fs) (start : Nat) :
    ∃ ss s back, (Cursor.begin start).cut (front ++ ws ++ literal ++ rest) = ss ++ s :: back ∧
      s.start = start + byteLength front ∧ s.text = ws ++ literal ∧
      ∀ c, c = '+' ∨ c = '-' → ∃ s' back',
        (Cursor.begin start).cut (front ++ ws ++ c :: literal ++ rest) = ss ++ s' :: back' ∧
        s'.operation = s.operation ∧ s'.text = ws ++ c :: literal ∧
        back'.map Segment.content = back.map Segment.content := by
  obtain ⟨n, tail, hliteral, hn⟩ := h.exists_cons
  obtain ⟨ss, k, op, hreads, hfresh, hat⟩ := h.begins.exists_fresh start
  have hblank : ∀ c ∈ ws, Plain c := fun c hc => plain_of_isBlank (h.blank c hc)
  have hplain : ∀ c ∈ ws ++ literal, Plain c :=
    fun c hc => (List.mem_append.1 hc).elim (hblank c) (h.plain c)
  have hat' : ((k.past ws).past literal).At start (front ++ ws ++ literal) := by
    rw [← Cursor.past_append, ← Cursor.after_plain hplain, List.append_assoc]
    exact hat.after _
  have hplace : k.start = start + byteLength front := by
    obtain ⟨before, hbefore, hstart, -⟩ := hat.place
    rw [Cursor.segment, hfresh.node, List.reverse_nil, List.append_nil] at hbefore
    rw [hstart, hbefore]
  obtain ⟨back, hback, hsame⟩ := h.ends.exists_cut hat'
  refine ⟨ss, ((k.past ws).past literal).segment, back, ?_, hplace, ?_, fun c hc => ?_⟩
  · rw [List.append_assoc, List.append_assoc, hreads, k.cut_plain hblank,
      Cursor.cut_plain h.plain, hback]
  · show (literal.reverse ++ (ws.reverse ++ k.node)).reverse = ws ++ literal
    simp [hfresh.node]
  · -- The sign is kept, and what is last in the number is seen last with it or without.
    have hcut := hfresh.cut?_sign h.blank hc
    have hinside : (((k.past ws).keep c).past literal).inside = ((k.past ws).past literal).inside :=
      insideOf_of_isBracket (visible_of_sign hc).2.2 k.inside
    have hlast (k : Cursor) : (k.past literal).previous = lastVisible literal := by
      rw [hliteral]
      exact k.previous_past_cons (isBlank_of_isInert hn) tail
    obtain ⟨back', hback', hcontent⟩ := hsame _ hinside (by rw [hlast, hlast])
    refine ⟨(((k.past ws).keep c).past literal).segment, back', ?_, rfl, ?_, hcontent⟩
    · rw [List.append_assoc, List.append_assoc, hreads, k.cut_plain hblank, List.cons_append,
        Cursor.cut, hcut]
      show ss ++ ((k.past ws).keep c).cut (literal ++ rest) = _
      rw [Cursor.cut_plain h.plain, hback']
    · show (literal.reverse ++ (c :: (ws.reverse ++ k.node))).reverse = ws ++ c :: literal
      simp [hfresh.node]

end NumberNode

/-- A text is trimmed in front of its first character that is not blank. -/
theorem startOf_append_cons {c : Char} (hc : isBlank c = false) (front back : List Char) :
    startOf (front ++ c :: back) = byteLength (front.takeWhile isBlank) := by
  rw [startOf, trimEnd_append_cons hc, List.takeWhile_append]
  split_ifs with h
  · rw [List.takeWhile_cons_of_neg (by simp [hc]), List.append_nil,
      (List.takeWhile_prefix isBlank).eq_of_length h]
  · rfl

/-- A text is as long as the blanks at its start and what is left without them. -/
theorem byteLength_trimStart (cs : List Char) :
    byteLength (cs.takeWhile isBlank) + byteLength (trimStart cs) = byteLength cs := by
  rw [← byteLength_append, trimStart, List.takeWhile_append_dropWhile]

namespace NumberNode

variable {front ws literal rest ds fs : List Char}

/-- **With a sign in front of the number the expression has the same segments,** but for this one,
the node of which begins with the sign. -/
theorem exists_split (h : NumberNode front ws literal rest ds fs)
    (hbalance : balance false 0 (front ++ ws ++ literal ++ rest) = .ok ()) :
    ∃ ss t ss' vs number vs', split (front ++ ws ++ literal ++ rest) = .ok (ss ++ t :: ss') ∧
      t.start ≤ byteLength (front ++ ws) ∧ byteLength (front ++ ws) < t.stop ∧
      t.node = vs ++ number ++ vs' ∧ Token.Numeral ds fs number ∧
      (∀ c ∈ vs, isBlank c = true) ∧ (∀ c ∈ vs', isBlank c = true) ∧
      ∀ c, c = '+' ∨ c = '-' → ∃ t' ss'',
        split (front ++ ws ++ c :: literal ++ rest) = .ok (ss ++ t' :: ss'') ∧
        t'.operation = t.operation ∧ t'.node = vs ++ c :: number ++ vs' ∧
        ss''.map Segment.content = ss'.map Segment.content := by
  obtain ⟨n, tail, hliteral, hn⟩ := h.exists_cons
  obtain ⟨front', vs, literal', rest', h', hstart, htrim, htrim'⟩ := h.exists_trim
  obtain ⟨number, vs', hfilter, hnumber, hvs'⟩ := h'.number
  have hbegin (c : Char) (hc : isBlank c = false) (cs : List Char) :
      startOf (front ++ ws ++ c :: cs) = byteLength ((front ++ ws).takeWhile isBlank) :=
    startOf_append_cons hc _ _
  have horigin : startOf (front ++ ws ++ literal ++ rest) =
      byteLength ((front ++ ws).takeWhile isBlank) := by
    rw [hliteral, List.append_assoc (front ++ ws)]
    exact hbegin n (isBlank_of_isInert hn) _
  have hlength := byteLength_trimStart (front ++ ws)
  rw [hstart, byteLength_append front'] at hlength
  obtain ⟨ss, t, ss', hcut, hplace, htext, hsigned⟩ :=
    h'.exists_cut (byteLength ((front ++ ws).takeWhile isBlank))
  refine ⟨ss, t, ss', vs, number, vs', ?_, by omega, ?_, ?_, hnumber, h'.blank, hvs',
    fun c hc => ?_⟩
  · rw [split_eq_ok_iff_balance, htrim, horigin, hcut]
    exact ⟨hbalance, rfl⟩
  · obtain ⟨d, tail', hliteral', -⟩ := h'.exists_cons
    have hpos := Char.utf8Size_pos d
    rw [Segment.stop, htext, hliteral', byteLength_append vs, byteLength_cons]
    omega
  · rw [Segment.node, htext]
    show (vs ++ literal').filter inNode = _
    rw [List.filter_append, filter_inNode_of_isBlank h'.blank, hfilter, List.append_assoc]
  · obtain ⟨hvisible, hkept, hbracket⟩ := visible_of_sign hc
    obtain ⟨t', ss'', hcut', hop, htext', hcontent⟩ := hsigned c hc
    refine ⟨t', ss'', ?_, hop, ?_, hcontent⟩
    · have hpasses : ∀ d ∈ [c], Passes (bracketOpen (front ++ ws)) d :=
        List.forall_mem_singleton.2 ⟨hbracket, fun _ => hkept⟩
      have hinsert := balance_insert hpasses (literal ++ rest)
      rw [split_eq_ok_iff_balance, htrim' c hvisible, List.append_assoc (front ++ ws),
        List.cons_append, hbegin c hvisible, hcut']
      refine ⟨?_, rfl⟩
      rw [← hbalance, List.append_assoc (front ++ ws), ← hinsert]
      simp
    · rw [Segment.node, htext']
      show (vs ++ c :: literal').filter inNode = _
      rw [List.filter_append, filter_inNode_of_isBlank h'.blank, List.filter_cons_of_pos hkept,
        hfilter]
      simp

end NumberNode
end Expression

namespace Chain

open Expression

/-- **A minus in front of a number is read as its sign, and a plus is not.**  In an expression that
is accepted let a number be a node by itself, at the start or right behind an operator.  With a
minus in front of it the expression denotes the same links, but for the value of this node, which
is negated.  With a plus in front of it the expression is refused, since the node is unknown. -/
theorem parse_signed {s : String} {c : Chain Float} {front ws literal rest ds fs : List Char}
    (hc : parse s = .ok c) (hs : s.toList = front ++ ws ++ literal ++ rest)
    (h : NumberNode front ws literal rest ds fs) :
    ∃ ss t ss' ls ls', split s.toList = .ok (ss ++ t :: ss') ∧
      t.start ≤ byteLength (front ++ ws) ∧ byteLength (front ++ ws) < t.stop ∧
      ls.length = ss.length ∧
      let x : Float := Scalar.ofDecimal (.ofParts false ds fs)
      let links (y : Float) : List (Link Float) :=
        ls ++ ⟨t.operation, .single (.fixed y)⟩ :: ls'
      c.links = links x ∧
      (∀ s' : String, s'.toList = front ++ ws ++ '-' :: literal ++ rest →
        ∃ c', parse s' = .ok c' ∧ c'.links = links (-x)) ∧
      ∀ s' : String, s'.toList = front ++ ws ++ '+' :: literal ++ rest →
        ∃ e, (parse s' : Except ParseError (Chain Float)) = .error e ∧ e.kind = .unknownNode := by
  obtain ⟨ts, hsplit, hdenotes⟩ := denotes_of_parse hc
  obtain ⟨hbalance, -⟩ := split_eq_ok_iff_balance.1 hsplit
  rw [hs] at hbalance hsplit
  obtain ⟨ss, t, ss', vs, number, vs', hcut, hstart, hstop, hnode, hnumber, hvs, hvs', hsigned⟩ :=
    h.exists_split hbalance
  rw [hsplit] at hcut
  obtain rfl := Except.ok.inj hcut
  obtain ⟨ls, l, ls', hlinks, hls, hl, hls'⟩ := exists_of_forall₂_append_cons hdenotes
  obtain ⟨hop, hpool⟩ := hl
  rw [hnode] at hpool
  obtain ⟨hfront, hback, hfinite, hvalue⟩ := hnumber.eq_of_ofNode?_eq_some hvs hvs' hpool
  obtain rfl : l = ⟨t.operation, .single (.fixed (Scalar.ofDecimal (.ofParts false ds fs)))⟩ := by
    rw [hop, ← hvalue]
  refine ⟨ss, t, ss', ls, ls', by rw [hs, hsplit], hstart, hstop, hls.length_eq.symm, hlinks,
    fun s' hs' => ?_, fun s' hs' => ?_⟩
  · obtain ⟨t', ss'', hsplit', hop', hnode', hcontent⟩ := hsigned '-' (.inr rfl)
    have hnegated : t'.Denotes (⟨t.operation,
        .single (.fixed (-Scalar.ofDecimal (.ofParts false ds fs)))⟩ : Link Float) :=
      ⟨hop', hnode'.symm ▸ hnumber.ofNode?_minus hfront hback hfinite⟩
    exact exists_parse_of_denotes (by rw [hs', hsplit'])
      (List.rel_append hls (.cons hnegated (Segment.forall₂_denotes_congr hcontent.symm hls')))
  · obtain ⟨t', ss'', hsplit', -, hnode', -⟩ := hsigned '+' (.inl rfl)
    refine ⟨t'.error .unknownNode, ?_, rfl⟩
    refine parse_eq_error_of_unknown (by rw [hs', hsplit']) hls ?_ ?_
    · rw [hnode', List.all_eq_false]
      exact ⟨'+', by simp, Bool.false_ne_true⟩
    · rw [hnode', List.append_assoc, List.cons_append]
      exact Pool.ofNode?_plus hfront _

/-- The hypotheses of `parse_signed` are satisfiable: a number behind an operator and a blank, and
in front of a blank and a parenthesis. -/
theorem parse_signed_factor :
    ∃ c : Chain Float, parse "d6(* 3 )-2" = .ok c ∧
      "d6(* 3 )-2".toList = "d6(*".toList ++ [' '] ++ "3 )".toList ++ "-2".toList ∧
      NumberNode "d6(*".toList [' '] "3 )".toList "-2".toList ['3'] [] ∧
      (∃ (c' : Chain Float) (op : Operation) (ls ls' : List (Link Float)),
        let x : Float := Scalar.ofDecimal (.ofParts false ['3'] [])
        parse "d6(* -3 )-2" = .ok c' ∧
          c.links = ls ++ ⟨op, .single (.fixed x)⟩ :: ls' ∧
          c'.links = ls ++ ⟨op, .single (.fixed (-x))⟩ :: ls') ∧
      ∃ e, (parse "d6(* +3 )-2" : Except ParseError (Chain Float)) = .error e ∧
        e.kind = .unknownNode := by
  have hread : (parse (α := Float) "d6(* 3 )-2").toOption.isSome = true := by decide +kernel
  obtain ⟨c, hc⟩ := Option.isSome_iff_exists.1 hread
  rw [toOption_eq_some_iff] at hc
  have htext : "d6(* 3 )-2".toList =
      "d6(*".toList ++ [' '] ++ "3 )".toList ++ "-2".toList := by decide
  have hblank : ∀ c ∈ [' '], isBlank c = true := List.forall_mem_singleton.2 rfl
  have hnode : NumberNode "d6(*".toList [' '] "3 )".toList "-2".toList ['3'] [] := by
    refine ⟨.inr ⟨"d6(".toList, '*', by decide, by decide, by decide, ?_⟩, hblank, ?_,
      ⟨['3'], [' '], by decide, .whole (List.forall_mem_singleton.2 rfl) (by decide), hblank⟩,
      .inr ⟨'-', ['2'], by decide, by decide, by decide, ?_⟩⟩
    · rintro ⟨hsign, -⟩
      exact absurd hsign (by decide)
    · rintro _ ⟨⟩
      rfl
    · rintro ⟨-, hlast⟩
      exact absurd (hlast ')' (by decide)) (by decide)
  obtain ⟨ss, t, ss', ls, ls', -, -, -, -, hlinks, hminus, hplus⟩ := parse_signed hc htext hnode
  obtain ⟨c', hc', hlinks'⟩ := hminus "d6(* -3 )-2" (by decide)
  exact ⟨c, hc, htext, hnode, ⟨c', t.operation, ls, ls', hc', hlinks, hlinks'⟩,
    hplus "d6(* +3 )-2" (by decide)⟩

/-- **A plus is not read as a sign.**  Three is accepted, and with a plus in front of it refused,
while a minus there is a sign. -/
theorem not_parse_plus_three :
    ∃ c c' : Chain Float, parse "3" = .ok c ∧ parse "-3" = .ok c' ∧
      (parse "+3" : Except ParseError (Chain Float)) = .error ⟨.unknownNode, 0, 2, "+3"⟩ := by
  have hread : (parse (α := Float) "3").toOption.isSome = true := by decide +kernel
  have hread' : (parse (α := Float) "-3").toOption.isSome = true := by decide +kernel
  obtain ⟨c, hc⟩ := Option.isSome_iff_exists.1 hread
  obtain ⟨c', hc'⟩ := Option.isSome_iff_exists.1 hread'
  rw [toOption_eq_some_iff] at hc hc'
  exact ⟨c, c', hc, hc', rfl⟩

end Chain
end DiceFormula
