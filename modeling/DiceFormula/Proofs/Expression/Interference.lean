/-
# Parsers do not interfere

A registry may get one more parser at any place in its list.  What an expression denotes then
changes only through a node for which the new parser gives a pool, and which no parser in front
of it knows (`Registry.readChain_interference`).  A parser that declines or breaks down over the
nodes of an expression therefore changes neither the chain nor the error.

The reason is that a node is looked up by the first parser that knows it, so only such a node is
looked up differently (`readNode?_eq_of_silent`).  Segments are read from the left up to the
first one that is blank or unknown, so it is enough to compare the nodes up to there, which are
those that the parsers are offered (`readChain_eq_of_offered`).  And the cutting into segments
does not ask the parsers at all.

Behind all others the new parser is asked only about nodes that nobody else knows.  It can turn
an error into a chain, but what is read already stays.
-/

import DiceFormula.Expression.Registry
import Mathlib.Data.List.Forall2

namespace DiceFormula

variable {α : Type}

/-- The text of a segment as the parsers get it. -/
def Segment.nodeText (s : Segment) : String := String.ofList s.node

namespace Registry

/-- The parsers, in the order in which they are tried. -/
def parsers (r : Registry α) : List (NodeParser α) := r.entries.map (·.2)

/-- The texts of the nodes of an expression. -/
def nodeTexts (text : String) : List String :=
  match Expression.split text.toList with
  | .error _ => []
  | .ok segments => segments.map Segment.nodeText

/-- The texts of the nodes that the parsers are asked about. -/
def offeredTexts (r : Registry α) (text : String) : List String :=
  match Expression.split text.toList with
  | .error _ => []
  | .ok segments => (r.offered segments).map Segment.nodeText

variable {r r' : Registry α}

/-! ### Looking up a node -/

/-- Only the order of the parsers matters, and not their ids. -/
theorem readNode?_eq_findSome? (r : Registry α) (node : String) :
    r.readNode? node = r.parsers.findSome? fun parser => (parser node).pool? := by
  rw [parsers, List.findSome?_map]
  rfl

section

variable {front back : List (NodeParser α)} {q : NodeParser α} {node : String}

/-- **A parser is silent about a node that it does not know,** or that is known in front of it. -/
theorem readNode?_eq_of_silent (hr : r.parsers = front ++ back)
    (hr' : r'.parsers = front ++ q :: back)
    (h : (q node).pool? = none ∨ ∃ parser ∈ front, ((parser node).pool?).isSome) :
    r'.readNode? node = r.readNode? node := by
  rw [readNode?_eq_findSome?, readNode?_eq_findSome?, hr, hr', List.findSome?_append,
    List.findSome?_append, List.findSome?_cons]
  rcases h with h | ⟨parser, hmem, hknown⟩
  · rw [h]
  · have hsome : (front.findSome? fun parser => (parser node).pool?).isSome = true :=
      List.findSome?_isSome_iff.2 ⟨parser, hmem, hknown⟩
    obtain ⟨pool, hpool⟩ := Option.isSome_iff_exists.1 hsome
    rw [hpool, Option.some_or, Option.some_or]

end

/-! ### Reading segments -/

theorem readLink_congr {s : Segment} (h : r'.readNode? s.nodeText = r.readNode? s.nodeText) :
    r'.readLink s = r.readLink s := by
  rw [Segment.nodeText] at h
  rw [readLink, readLink, readSegment, readSegment, h]

/-- A blank segment is an error for every registry. -/
theorem readLink_of_blank (r : Registry α) {s : Segment} (h : s.node.all isBlank = true) :
    r.readLink s = .error (s.error .emptyNode) := by
  rw [readLink, readSegment, if_pos h]
  rfl

/-- So is an unknown one, if it is not blank. -/
theorem readLink_of_unknown {s : Segment} (h : ¬ s.node.all isBlank = true)
    (hnode : ¬ (r.readNode? s.nodeText).isSome = true) :
    r.readLink s = .error (s.error .unknownNode) := by
  rw [Segment.nodeText, Option.not_isSome_iff_eq_none] at hnode
  rw [readLink, readSegment, if_neg h, hnode]
  rfl

/-- **Registries that agree on what the first is offered read the same links.** -/
theorem mapM_readLink_eq_of_offered {ss : List Segment}
    (h : ∀ s ∈ r.offered ss, r'.readNode? s.nodeText = r.readNode? s.nodeText) :
    ss.mapM r'.readLink = ss.mapM r.readLink := by
  induction ss with
  | nil => rfl
  | cons s ss ih =>
    rw [List.mapM_cons, List.mapM_cons]
    rw [offered] at h
    split_ifs at h with hblank hknown
    · rw [readLink_of_blank r' hblank, readLink_of_blank r hblank]
      rfl
    · obtain ⟨hs, hss⟩ := List.forall_mem_cons.1 h
      rw [readLink_congr hs, ih hss]
    · -- The first registry stops here, and so does the other one.
      have hs := h s (List.mem_singleton_self s)
      rw [readLink_congr hs, readLink_of_unknown hblank hknown]
      rfl

theorem readChain_eq_of_offered {text : String}
    (h : ∀ node ∈ r.offeredTexts text, r'.readNode? node = r.readNode? node) :
    r'.readChain text = r.readChain text := by
  rw [readChain, readChain]
  rw [offeredTexts] at h
  cases hsplit : Expression.split text.toList with
  | error e => rfl
  | ok ss =>
    rw [hsplit] at h
    have hlinks : ss.mapM r'.readLink = ss.mapM r.readLink :=
      mapM_readLink_eq_of_offered fun s hs => h s.nodeText (List.mem_map_of_mem hs)
    simp only [bind, Except.bind, hlinks]

/-- The parsers are offered nodes of the expression alone. -/
theorem offered_subset (r : Registry α) (ss : List Segment) : r.offered ss ⊆ ss := by
  induction ss with
  | nil => exact List.Subset.refl []
  | cons s ss ih =>
    rw [offered]
    split_ifs
    · exact List.nil_subset _
    · exact List.cons_subset_cons s ih
    · exact List.cons_subset_cons s (List.nil_subset _)

theorem offeredTexts_subset (r : Registry α) (text : String) :
    r.offeredTexts text ⊆ nodeTexts text := by
  rw [offeredTexts, nodeTexts]
  split
  · exact List.Subset.refl []
  · exact List.map_subset _ (r.offered_subset _)

/-- What a registry reads through to the end, it is only offered nodes of that it knows. -/
theorem isSome_readNode?_of_mapM {ss : List Segment} {ls : List (Link α)}
    (h : ss.mapM r.readLink = .ok ls) :
    ∀ s ∈ r.offered ss, (r.readNode? s.nodeText).isSome = true := by
  induction ss generalizing ls with
  | nil => exact fun s hs => absurd hs List.not_mem_nil
  | cons s ss ih =>
    rw [List.mapM_cons] at h
    rw [offered]
    split_ifs with hblank hknown
    · exact fun s hs => absurd hs List.not_mem_nil
    · cases hl : r.readLink s with
      | error e => rw [hl] at h; cases h
      | ok l =>
        cases hls : ss.mapM r.readLink with
        | error e => rw [hl, hls] at h; cases h
        | ok ls' => exact List.forall_mem_cons.2 ⟨hknown, ih hls⟩
    · rw [readLink_of_unknown hblank hknown] at h
      cases h

theorem isSome_readNode?_of_readChain {text : String} {c : Chain α}
    (h : r.readChain text = .ok c) :
    ∀ node ∈ r.offeredTexts text, (r.readNode? node).isSome = true := by
  rw [readChain] at h
  rw [offeredTexts]
  cases hsplit : Expression.split text.toList with
  | error e => rw [hsplit] at h; cases h
  | ok ss =>
    cases hls : ss.mapM r.readLink with
    | error e => simp only [hsplit, bind, Except.bind, hls] at h; cases h
    | ok ls => exact List.forall_mem_map.2 (isSome_readNode?_of_mapM hls)

/-! ### One more parser -/

section

variable {front back : List (NodeParser α)} {q : NodeParser α}

/-- **Parsers do not interfere.**  With one more parser an expression denotes something else only
if that parser gives a pool for a node that the registry was asked about and that no parser in
front knows.  So a parser that gives none changes nothing, and behind all others a parser keeps
what is read. -/
theorem readChain_interference (hr : r.parsers = front ++ back)
    (hr' : r'.parsers = front ++ q :: back) (text : String) :
    (r'.readChain text ≠ r.readChain text →
      ∃ node ∈ nodeTexts text, node ∈ r.offeredTexts text ∧ (q node).pool?.isSome = true ∧
        ∀ parser ∈ front, (parser node).pool? = none) ∧
    ((∀ node ∈ nodeTexts text, (q node).pool? = none) →
      r'.readChain text = r.readChain text) ∧
    (back = [] → ∀ c, r.readChain text = .ok c → r'.readChain text = .ok c) := by
  have hfirst (hne : r'.readChain text ≠ r.readChain text) :
      ∃ node ∈ r.offeredTexts text, (q node).pool?.isSome = true ∧
        ∀ parser ∈ front, (parser node).pool? = none := by
    by_contra! hnone
    refine hne (readChain_eq_of_offered fun node hnode => readNode?_eq_of_silent hr hr' ?_)
    by_cases hq : (q node).pool?.isSome = true
    · obtain ⟨parser, hmem, hknown⟩ := hnone node hnode hq
      exact .inr ⟨parser, hmem, Option.isSome_iff_ne_none.2 hknown⟩
    · exact .inl (Option.not_isSome_iff_eq_none.1 hq)
  refine ⟨fun hne => ?_, fun hq => ?_, fun hback c hc => ?_⟩
  · obtain ⟨node, hnode, hq⟩ := hfirst hne
    exact ⟨node, offeredTexts_subset r text hnode, hnode, hq⟩
  · by_contra hne
    obtain ⟨node, hnode, hsome, -⟩ := hfirst hne
    rw [hq node (offeredTexts_subset r text hnode)] at hsome
    cases hsome
  · -- All nodes are known already, and in front of the new parser.
    rw [← hc]
    by_contra hne
    obtain ⟨node, hnode, -, hfront⟩ := hfirst hne
    have hknown := isSome_readNode?_of_readChain hc node hnode
    rw [readNode?_eq_findSome?, hr, hback, List.append_nil,
      List.findSome?_eq_none_iff.2 hfront] at hknown
    cases hknown

/-- A parser that knows the single text `adv`, and breaks down over all others. -/
def advantage : NodeParser Float
  | "adv" => .pool (.single (.ofInt 20))
  | _ => .fault

/-- The hypotheses of `readChain_interference` are satisfiable: behind the usual parser, one of
the text `adv` reads `adv+5`, which was an error, and leaves `2d6-1` alone. -/
theorem readChain_interference_advantage :
    (∃ node ∈ nodeTexts "adv+5", node ∈ (builtin : Registry Float).offeredTexts "adv+5" ∧
      (advantage node).pool?.isSome = true ∧
      ∀ parser ∈ [(builtinParser : NodeParser Float)], (parser node).pool? = none) ∧
    (builtin.add advantage).2.readChain "2d6-1" = builtin.readChain "2d6-1" := by
  have hread : ((builtin.add advantage).2.readChain "adv+5").toBool = true := by
    decide +kernel
  have hunread : ((builtin : Registry Float).readChain "adv+5").toBool = false := by
    decide +kernel
  have hparsers : (builtin : Registry Float).parsers = [builtinParser] ++ [] := rfl
  have hmore : (builtin.add advantage).2.parsers = [builtinParser] ++ advantage :: [] := rfl
  have hall := readChain_interference hparsers hmore
  refine ⟨(hall "adv+5").1 fun heq => ?_, (hall "2d6-1").2.1 (by decide +kernel)⟩
  rw [heq, hunread] at hread
  cases hread

end

end Registry
end DiceFormula
