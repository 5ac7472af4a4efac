/-
# Places in a text

A piece of a text has a place: it begins so many bytes behind the origin of the text, and ends
where it has been spelled out (`StandsAt`).  Pieces of a piece are pieces of the whole text
(`StandsAt.trans`), and in a string the two ends of a place are positions between characters,
from one of which up to the other the string reads as the piece (`StandsAt.extract_eq`).

What a character means depends on what stands in front of it, and twice that is the last
character of some kind:

| in front | looked at | known by |
| --- | --- | --- |
| whether a bracket is open | the last bracket | `bracketOpen` |
| what a sign follows | the last character that is not blank | `lastVisible` |
-/

import DiceFormula.Proofs.Expression.Acceptance
import Mathlib.Data.List.Induction
import Mathlib.Data.String.Basic

namespace DiceFormula

/-! ### Pieces -/

/-- In a text that begins at `origin`, the bytes from `start` up to `stop` spell `piece`. -/
def StandsAt (origin : Nat) (text : List Char) (start stop : Nat) (piece : List Char) : Prop :=
  ∃ front back, text = front ++ piece ++ back ∧ start = origin + byteLength front ∧
    stop = start + byteLength piece

namespace StandsAt

variable {origin start stop start' stop' : Nat} {text piece piece' : List Char}

/-- **A piece of a piece is a piece.** -/
theorem trans (h : StandsAt origin text start stop piece)
    (h' : StandsAt start piece start' stop' piece') :
    StandsAt origin text start' stop' piece' := by
  obtain ⟨front, back, rfl, rfl, rfl⟩ := h
  obtain ⟨front', back', rfl, rfl, rfl⟩ := h'
  refine ⟨front ++ front', back' ++ back, by simp, ?_, rfl⟩
  rw [byteLength_append, Nat.add_assoc]

end StandsAt

theorem byteLength_eq_utf8Len (cs : List Char) : byteLength cs = String.utf8Len cs := by
  induction cs with
  | nil => rfl
  | cons c cs ih => rw [byteLength_cons, String.utf8Len_cons, ih, Nat.add_comm]

/-- Behind the first characters of a string there is a position. -/
theorem isValid_byteLength {s : String} {front back : List Char} (h : s.toList = front ++ back) :
    (⟨byteLength front⟩ : String.Pos.Raw).IsValid s := by
  rw [String.Pos.Raw.isValid_iff_exists_append]
  refine ⟨String.ofList front, String.ofList back, ?_, ?_⟩
  · rw [← String.ofList_append, ← h, String.ofList_toList]
  · rw [String.rawEndPos_ofList, byteLength_eq_utf8Len]

namespace StandsAt

variable {s : String} {start stop : Nat} {piece : List Char}

/-- A piece of a string begins at a position between characters. -/
theorem isValid_start (h : StandsAt 0 s.toList start stop piece) :
    (⟨start⟩ : String.Pos.Raw).IsValid s := by
  obtain ⟨front, back, htext, rfl, -⟩ := h
  rw [Nat.zero_add]
  rw [List.append_assoc] at htext
  exact isValid_byteLength htext

/-- It ends at one. -/
theorem isValid_stop (h : StandsAt 0 s.toList start stop piece) :
    (⟨stop⟩ : String.Pos.Raw).IsValid s := by
  obtain ⟨front, back, htext, rfl, rfl⟩ := h
  rw [Nat.zero_add, ← byteLength_append]
  exact isValid_byteLength htext

/-- **From one to the other the string reads as the piece.** -/
theorem extract_eq (h : StandsAt 0 s.toList start stop piece) :
    String.Pos.Raw.extract s ⟨start⟩ ⟨stop⟩ = String.ofList piece := by
  obtain ⟨front, back, htext, rfl, rfl⟩ := h
  rw [Nat.zero_add, byteLength_eq_utf8Len, byteLength_eq_utf8Len, ← String.ofList_toList (s := s),
    htext]
  exact String.extract_of_valid front piece back

end StandsAt

theorem exists_eq_trimEnd_append (cs : List Char) : ∃ back, cs = trimEnd cs ++ back := by
  refine ⟨(cs.reverse.takeWhile isBlank).reverse, ?_⟩
  rw [trimEnd, ← List.reverse_append, List.takeWhile_append_dropWhile, List.reverse_reverse]

/-- **What is left of a text without the blanks at its ends** is a piece of it. -/
theorem standsAt_trim (cs : List Char) :
    StandsAt 0 cs (Expression.startOf cs) (Expression.startOf cs + byteLength (trim cs))
      (trim cs) := by
  obtain ⟨back, hback⟩ := exists_eq_trimEnd_append cs
  refine ⟨(trimEnd cs).takeWhile isBlank, back, ?_, (Nat.zero_add _).symm, rfl⟩
  rwa [trim, trimStart, List.takeWhile_append_dropWhile]

namespace Expression

/-! ### In front of a character -/

def isBracket (c : Char) : Bool := c == '[' || c == ']'

/-- Whether a bracket is open behind a text: the last bracket in it is one that opens. -/
def bracketOpen (before : List Char) : Bool := (before.filter isBracket).getLast? == some '['

/-- The last character of a text that is not blank. -/
def lastVisible (before : List Char) : Option Char :=
  (before.filter fun c => !isBlank c).getLast?

theorem isBlank_of_isBracket {c : Char} (hc : isBracket c = true) : isBlank c = false := by
  rw [isBracket, Bool.or_eq_true, beq_iff_eq, beq_iff_eq] at hc
  rcases hc with rfl | rfl <;> rfl

theorem bracketOpen_concat (before : List Char) (c : Char) :
    bracketOpen (before ++ [c]) = if isBracket c then c == '[' else bracketOpen before := by
  rw [bracketOpen, List.filter_append, List.filter_singleton]
  cases hc : isBracket c with
  | true => simp
  | false => simp [bracketOpen]

theorem lastVisible_append (before cs : List Char) :
    lastVisible (before ++ cs) = (lastVisible cs).or (lastVisible before) := by
  rw [lastVisible, List.filter_append, List.getLast?_append]
  rfl

theorem lastVisible_concat (before : List Char) (c : Char) :
    lastVisible (before ++ [c]) = if isBlank c then lastVisible before else some c := by
  rw [lastVisible_append, lastVisible, List.filter_singleton]
  cases hc : isBlank c with
  | true => rfl
  | false => rfl

/-- The last character that is not blank comes last once the blanks at the end are dropped. -/
theorem getLast?_trimEnd (cs : List Char) : (trimEnd cs).getLast? = lastVisible cs := by
  rw [trimEnd, List.getLast?_reverse, lastVisible, ← List.head?_reverse, ← List.filter_reverse,
    List.head?_filter, List.find?_not_eq_head?_dropWhile]

/-- Behind an opening bracket a bracket is open. -/
theorem bracketOpen_of_lastVisible {before : List Char} (h : lastVisible before = some '[') :
    bracketOpen before = true := by
  induction before using List.reverseRecOn with
  | nil => cases h
  | append_singleton before c ih =>
    rw [lastVisible_concat] at h
    rw [bracketOpen_concat]
    split_ifs at h with hblank
    · have hc : isBracket c = false := by
        by_contra hc
        rw [isBlank_of_isBracket (Bool.not_eq_false _ ▸ hc)] at hblank
        cases hblank
      rw [hc]
      exact ih h
    · obtain rfl := Option.some.inj h
      rfl

end Expression
end DiceFormula
