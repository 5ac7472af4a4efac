/-
# Where an expression is wrong

Whatever is wrong with an expression, the error points at a piece of it: its two ends are
positions between characters, and what stands between them is what the error quotes
(`ParseError.PointsInto`).

| what is wrong | the piece |
| --- | --- |
| brackets or parentheses | one character |
| only blanks and parentheses in a segment | the first such segment, if no parser fails before |
| no parser for a node | the segment of the first such node, if nothing is blank before |

Segments are read from the left up to the first one that is refused, so all in front of it are
accepted (`Registry.exists_refused`).  There is always a first segment, since cutting gives at
least one; the error for an expression without segments is never met.
-/

import DiceFormula.Proofs.Expression.Balance
import DiceFormula.Proofs.Expression.Division
import DiceFormula.Proofs.Expression.Interference

namespace DiceFormula

variable {α : Type}

/-! ### Places of errors -/

/-- The error is about a piece of the text between two characters, and quotes it. -/
structure ParseError.PointsInto (e : ParseError) (source : String) : Prop where
  ordered : e.start ≤ e.stop
  isValid_start : (⟨e.start⟩ : String.Pos.Raw).IsValid source
  isValid_stop : (⟨e.stop⟩ : String.Pos.Raw).IsValid source
  slice_eq : e.slice = String.Pos.Raw.extract source ⟨e.start⟩ ⟨e.stop⟩

theorem StandsAt.pointsInto {source : String} {e : ParseError} {piece : List Char}
    (h : StandsAt 0 source.toList e.start e.stop piece) (hslice : e.slice = String.ofList piece) :
    e.PointsInto source where
  ordered := by
    obtain ⟨-, -, -, -, hstop⟩ := h
    rw [hstop]
    exact Nat.le_add_right _ _
  isValid_start := h.isValid_start
  isValid_stop := h.isValid_stop
  slice_eq := hslice.trans h.extract_eq.symm

namespace Expression

/-- A fault is of one character, which takes one byte. -/
theorem IsFault.standsAt {origin : Nat} {text : List Char} {e : ParseError}
    (h : IsFault origin text e) :
    ∃ c, StandsAt origin text e.start e.stop [c] ∧ e.slice = String.ofList [c] := by
  obtain ⟨before, c, after, htext, hstart, hstop, hslice, hcause⟩ := h
  have hsize : byteLength [c] = 1 := by
    generalize e.kind = kind at hcause
    rcases hcause with ⟨-, -, hbreaks⟩ | ⟨-, hopen⟩
    · cases hbreaks <;> rfl
    · cases hopen <;> rfl
  exact ⟨c, ⟨before, after, by rw [htext]; simp, hstart, by rw [hstop, hsize]⟩, hslice⟩

/-- A fault is one of brackets or of parentheses. -/
theorem IsFault.kind_ne {origin : Nat} {text : List Char} {e : ParseError}
    (h : IsFault origin text e) : ¬ (e.kind = .emptyNode ∨ e.kind = .unknownNode) := by
  obtain ⟨before, c, after, -, -, -, -, hcause⟩ := h
  generalize e.kind = kind at hcause
  rcases hcause with ⟨-, -, hbreaks⟩ | ⟨-, hopen⟩
  · cases hbreaks <;> decide
  · cases hopen <;> decide

/-- Cutting gives at least one segment. -/
theorem split_ne_nil {cs : List Char} {ss : List Segment} (h : split cs = .ok ss) : ss ≠ [] := by
  obtain ⟨-, rfl⟩ := split_eq_ok_iff.1 h
  exact Cursor.cut_ne_nil _ _

end Expression

/-! ### Segments that are refused -/

namespace Registry

/-- The segment is not blank, parentheses aside, and some parser knows it. -/
structure Accepts (r : Registry α) (s : Segment) : Prop where
  visible : ∃ c ∈ s.node, isBlank c = false
  known : ∃ parser ∈ r.parsers, (parser s.nodeText).pool?.isSome = true

/-- The segment is blank, parentheses aside; or else no parser knows it. -/
inductive Refuses (r : Registry α) (s : Segment) : ParseError.Kind → Prop where
  | blank (h : ∀ c ∈ s.node, isBlank c = true) : Refuses r s .emptyNode
  | unknown (hvisible : ∃ c ∈ s.node, isBlank c = false)
      (h : ∀ parser ∈ r.parsers, (parser s.nodeText).pool? = none) : Refuses r s .unknownNode

variable {r : Registry α} {ss : List Segment} {e : ParseError}

/-- A segment is accepted, and gives a link, or is refused with an error about it. -/
theorem readLink_cases (r : Registry α) (s : Segment) :
    r.Accepts s ∧ (∃ l, r.readLink s = .ok l) ∨
    ∃ kind, r.Refuses s kind ∧ r.readLink s = .error (s.error kind) := by
  by_cases hblank : s.node.all isBlank = true
  · exact .inr ⟨_, .blank (List.all_eq_true.1 hblank), readLink_of_blank r hblank⟩
  have hvisible : ∃ c ∈ s.node, isBlank c = false := by simpa using hblank
  cases hnode : r.readNode? s.nodeText with
  | none =>
    refine .inr ⟨_, .unknown hvisible ?_, readLink_of_unknown hblank (by simp [hnode])⟩
    rwa [readNode?_eq_findSome?, List.findSome?_eq_none_iff] at hnode
  | some pool =>
    refine .inl ⟨⟨hvisible, ?_⟩, ⟨s.operation, pool⟩, ?_⟩
    · rw [← List.findSome?_isSome_iff, ← readNode?_eq_findSome?, hnode]
      rfl
    · rw [Segment.nodeText] at hnode
      rw [readLink, readSegment, if_neg hblank, hnode]
      rfl

/-- **Reading stops at the first segment that is refused.** -/
theorem exists_refused (h : ss.mapM r.readLink = .error e) :
    ∃ front s back kind, ss = front ++ s :: back ∧ (∀ t ∈ front, r.Accepts t) ∧
      r.Refuses s kind ∧ e = s.error kind := by
  induction ss with
  | nil => cases h
  | cons s ss ih =>
    rw [List.mapM_cons] at h
    rcases r.readLink_cases s with ⟨haccepts, l, hl⟩ | ⟨kind, hrefuses, hs⟩
    · cases hls : ss.mapM r.readLink with
      | ok ls => rw [hl, hls] at h; cases h
      | error e' =>
        rw [hl, hls] at h
        obtain ⟨front, t, back, kind, rfl, hfront, ht⟩ := ih (Except.error.inj h ▸ hls)
        exact ⟨s :: front, t, back, kind, rfl, List.forall_mem_cons.2 ⟨haccepts, hfront⟩, ht⟩
    · rw [hs] at h
      exact ⟨[], s, ss, kind, rfl, fun t ht => absurd ht List.not_mem_nil, hrefuses,
        (Except.error.inj h).symm⟩

/-- What is read of at least one segment is a chain. -/
theorem chainOf?_ne_none {ls : List (Link α)} (hss : ss ≠ []) (h : ss.mapM r.readLink = .ok ls) :
    chainOf? ls ≠ none := by
  obtain ⟨s, ss, rfl⟩ := List.exists_cons_of_ne_nil hss
  rw [List.mapM_cons] at h
  cases hl : r.readLink s with
  | error e => rw [hl] at h; cases h
  | ok l =>
    cases hls : ss.mapM r.readLink with
    | error e => rw [hl, hls] at h; cases h
    | ok ls' =>
      rw [hl, hls] at h
      obtain rfl := Except.ok.inj h
      rintro ⟨⟩

/-- An expression that is not read cannot be cut, or has a segment that is refused. -/
theorem split_or_mapM_of_readChain {source : String} (h : r.readChain source = .error e) :
    Expression.split source.toList = .error e ∨
    ∃ ss, Expression.split source.toList = .ok ss ∧ ss.mapM r.readLink = .error e := by
  rw [readChain] at h
  cases hsplit : Expression.split source.toList with
  | error e' =>
    rw [hsplit] at h
    exact .inl (congrArg Except.error (Except.error.inj h))
  | ok ss =>
    refine .inr ⟨ss, rfl, ?_⟩
    cases hls : ss.mapM r.readLink with
    | error e' =>
      simp only [hsplit, bind, Except.bind, hls] at h
      exact congrArg Except.error (Except.error.inj h)
    | ok ls =>
      obtain ⟨c, hc⟩ := Option.ne_none_iff_exists'.1
        (chainOf?_ne_none (Expression.split_ne_nil hsplit) hls)
      simp only [hsplit, bind, Except.bind, hls, hc] at h
      cases h

/-- **An error points at what is wrong.**  It quotes the piece of the expression at its place.
If that is a segment that is blank or unknown, then all in front of it are accepted.  The error
for an expression without segments is not met, since what is read is a chain. -/
theorem readChain_error (r : Registry α) (source : String) :
    (∀ e, r.readChain source = .error e → e.PointsInto source ∧
      (e.kind = .emptyNode ∨ e.kind = .unknownNode →
        ∃ front s back, Expression.split source.toList = .ok (front ++ s :: back) ∧
          (∀ t ∈ front, r.Accepts t) ∧ r.Refuses s e.kind ∧
          e.start = s.start ∧ e.stop = s.stop)) ∧
    ∀ ss ls, Expression.split source.toList = .ok ss → ss.mapM r.readLink = .ok ls →
      chainOf? ls ≠ none := by
  refine ⟨fun e h => ?_, fun ss ls hsplit => chainOf?_ne_none (Expression.split_ne_nil hsplit)⟩
  rcases split_or_mapM_of_readChain h with hsplit | ⟨ss, hsplit, herror⟩
  · have hfault := Expression.isFault_of_split hsplit
    obtain ⟨c, hstands, hslice⟩ := hfault.standsAt
    exact ⟨((standsAt_trim source.toList).trans hstands).pointsInto hslice,
      fun hkind => absurd hkind hfault.kind_ne⟩
  · obtain ⟨front, s, back, kind, rfl, hfront, hs, rfl⟩ := exists_refused herror
    have hstands := Expression.standsAt_of_mem_split hsplit
      (List.mem_append_right front List.mem_cons_self)
    exact ⟨StandsAt.pointsInto hstands rfl,
      fun _ => ⟨front, s, back, hsplit, hfront, hs, rfl, rfl⟩⟩

/-- A parser that knows the single text `ü`. -/
def umlaut : NodeParser Unit
  | "ü" => .pool (.single (.fixed ()))
  | _ => .decline

/-- An expression as in `readChain_error` with an error: letters take two bytes, the parser knows
the first of two segments, and would be asked about the second one without its parentheses. -/
theorem readChain_error_umlaut :
    (empty.add umlaut).2.readChain " ü*(ä) " = .error ⟨.unknownNode, 4, 8, "(ä)"⟩ ∧
    (⟨.unknownNode, 4, 8, "(ä)"⟩ : ParseError).PointsInto " ü*(ä) " ∧
    ∃ front s back, Expression.split " ü*(ä) ".toList = .ok (front ++ s :: back) ∧
      (∀ t ∈ front, (empty.add umlaut).2.Accepts t) ∧
      (empty.add umlaut).2.Refuses s .unknownNode ∧ 4 = s.start ∧ 8 = s.stop := by
  have herror : (empty.add umlaut).2.readChain " ü*(ä) " =
      .error ⟨.unknownNode, 4, 8, "(ä)"⟩ := by
    rfl
  obtain ⟨hpoints, hrefused⟩ := (readChain_error (empty.add umlaut).2 " ü*(ä) ").1 _ herror
  exact ⟨herror, hpoints, hrefused (.inr rfl)⟩

end Registry
end DiceFormula
