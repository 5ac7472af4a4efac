/-
# When an expression is balanced

An expression can be cut if it is well nested: its brackets open and close in turn, and the
parentheses outside of them, read as steps up and down, are a Dyck word (`WellNested`).  What is
wrong with any other is told by the walk through it (`split_balance`):

| the text up to the character | the character | the error |
| --- | --- | --- |
| ends inside of a bracket | `[` | bracket |
| ends outside of brackets | `]` | bracket |
| ends outside of brackets, and all its parentheses are closed | `)` | parenthesis |

These are the characters that nothing behind them can mend, and the first of them is the error.
If there is none, then the error is the bracket that is open at the end, or else, of the
parentheses that are, the one that was opened last.

The walk keeps the place of the open bracket and the places of the open parentheses, innermost
first.  For the text read so far this means that the bracket is the last one in it, and that in
front of and behind each of these parentheses, up to the next, all others are closed (`Opens`).
So a parenthesis that closes pairs with the innermost one, and whatever was read can be mended by
closing what is open (`Scanned.mendable`).
-/

import DiceFormula.Proofs.Expression.Place
import Mathlib.Combinatorics.Enumerative.DyckWord

namespace DiceFormula
namespace Expression

/-! ### Well nested texts -/

/-- A bracket that opens and one that closes, `n` times in turn. -/
def alternating (n : Nat) : List Char := (List.replicate n ['[', ']']).flatten

/-- The parentheses of a text outside of its brackets, as steps up and down.  Whether the text
begins inside of a bracket is told by `inside`. -/
def nesting (inside : Bool) : List Char → List DyckStep
  | [] => []
  | c :: cs =>
    if isBracket c then nesting (c == '[') cs
    else if inside then nesting true cs
    else if c = '(' then .U :: nesting false cs
    else if c = ')' then .D :: nesting false cs
    else nesting false cs

/-- As many steps down as up, and never more of them. -/
def IsDyck (steps : List DyckStep) : Prop := ∃ w : DyckWord, w.toList = steps

/-- Brackets open and close in turn, and the parentheses outside of them are balanced. -/
structure WellNested (cs : List Char) : Prop where
  brackets : ∃ n, cs.filter isBracket = alternating n
  parens : IsDyck (nesting false cs)

/-- Something can stand behind the text so that it is well nested. -/
def Mendable (cs : List Char) : Prop := ∃ rest, WellNested (cs ++ rest)

theorem Mendable.of_append {cs ds : List Char} (h : Mendable (cs ++ ds)) : Mendable cs := by
  obtain ⟨rest, hrest⟩ := h
  exact ⟨ds ++ rest, by rwa [← List.append_assoc]⟩

/-- A parenthesis in front of this text is not closed in it. -/
def StaysOpen (after : List Char) : Prop :=
  ∀ n, ((nesting false after).take n).count .D ≤ ((nesting false after).take n).count .U

/-- A parenthesis outside of brackets is open behind the text. -/
def ParenOpen (cs : List Char) : Prop :=
  ∃ before after, cs = before ++ '(' :: after ∧ bracketOpen before = false ∧ StaysOpen after

/-- A character that nothing behind it can mend. -/
inductive Breaks (before : List Char) : Char → ParseError.Kind → Prop where
  | bracketInside (h : bracketOpen before = true) : Breaks before '[' .unbalancedBracket
  | closingBracket (h : bracketOpen before = false) : Breaks before ']' .unbalancedBracket
  | closingParen (h : bracketOpen before = false) (hparen : ¬ ParenOpen before) :
      Breaks before ')' .unbalancedParenthesis

/-- The bracket that is open at the end; or, if there is none, the last parenthesis to be opened
of those that are not closed. -/
inductive LeftOpen (before after : List Char) : Char → ParseError.Kind → Prop where
  | bracket (h : ∀ c ∈ after, isBracket c = false) : LeftOpen before after '[' .unbalancedBracket
  | paren (hend : bracketOpen (before ++ '(' :: after) = false)
      (hout : bracketOpen before = false) (hopen : StaysOpen after) (hlast : ¬ ParenOpen after) :
      LeftOpen before after '(' .unbalancedParenthesis

/-- The error of a text that begins at `origin`: its first character that nothing can mend, or
what is left open at its end. -/
def IsFault (origin : Nat) (text : List Char) (e : ParseError) : Prop :=
  ∃ before c after, text = before ++ c :: after ∧
    e.start = origin + byteLength before ∧ e.stop = e.start + 1 ∧ e.slice = String.singleton c ∧
    (Mendable before ∧ ¬ Mendable (before ++ [c]) ∧ Breaks before c e.kind ∨
      Mendable text ∧ LeftOpen before after c e.kind)

/-! ### Brackets in turn -/

theorem alternating_concat (n : Nat) : alternating (n + 1) = alternating n ++ ['[', ']'] := by
  rw [alternating, List.replicate_succ', List.flatten_append]
  rfl

/-- What stands behind brackets in turn is brackets in turn. -/
theorem exists_eq_alternating {m n : Nat} {rest : List Char}
    (h : alternating m = alternating n ++ rest) : ∃ k, rest = alternating k := by
  induction n generalizing m with
  | zero => exact ⟨m, h.symm⟩
  | succ n ih =>
    cases m with
    | zero => cases h
    | succ m => exact ih (List.cons.inj (List.cons.inj h).2).2

theorem getLast?_alternating_ne (n : Nat) : (alternating n).getLast? ≠ some '[' := by
  cases n with
  | zero => rintro ⟨⟩
  | succ n =>
    rw [alternating_concat]
    simp

/-- Behind a text outside of brackets, what is open is open in what follows. -/
theorem bracketOpen_append {before : List Char} (h : bracketOpen before = false)
    (cs : List Char) : bracketOpen (before ++ cs) = bracketOpen cs := by
  induction cs using List.reverseRecOn with
  | nil => rw [List.append_nil, h]; rfl
  | append_singleton cs c ih =>
    rw [← List.append_assoc, bracketOpen_concat, bracketOpen_concat, ih]

theorem bracketOpen_append_paren {before : List Char} (h : bracketOpen before = false)
    (cs : List Char) : bracketOpen (before ++ '(' :: cs) = bracketOpen cs := by
  rw [List.append_cons]
  refine bracketOpen_append ?_ cs
  rw [bracketOpen_concat, h]
  rfl

/-! ### Steps -/

/-- The steps of a text are those of its parts. -/
theorem nesting_append (cs ds : List Char) :
    nesting false (cs ++ ds) = nesting false cs ++ nesting (bracketOpen cs) ds := by
  -- From the end of the text in front, where its last bracket is.
  induction cs using List.reverseRecOn generalizing ds with
  | nil => rfl
  | append_singleton cs c ih =>
    rw [List.append_assoc, ih, ih [c], List.append_assoc, List.append_cancel_left_eq,
      bracketOpen_concat, List.singleton_append, nesting, nesting]
    cases bracketOpen cs <;> split_ifs <;> first | rfl | contradiction

theorem nesting_append_paren {before : List Char} (h : bracketOpen before = false)
    (after : List Char) :
    nesting false (before ++ '(' :: after) = nesting false before ++ .U :: nesting false after := by
  rw [nesting_append, h]
  rfl

theorem nesting_concat {before : List Char} (h : bracketOpen before = false) :
    nesting false (before ++ [')']) = nesting false before ++ [.D] := by
  rw [nesting_append, h]
  rfl

/-- No other character is a step. -/
theorem nesting_singleton {inside : Bool} {c : Char}
    (hc : inside = false → c ≠ '(' ∧ c ≠ ')') : nesting inside [c] = [] := by
  rw [nesting]
  split_ifs with h₁ h₂ h₃ h₄
  · rfl
  · rfl
  · exact absurd h₃ (hc (Bool.not_eq_true _ ▸ h₂)).1
  · exact absurd h₄ (hc (Bool.not_eq_true _ ▸ h₂)).2
  · rfl

namespace IsDyck

theorem nil : IsDyck [] := ⟨0, rfl⟩

theorem append {steps steps' : List DyckStep} (h : IsDyck steps) (h' : IsDyck steps') :
    IsDyck (steps ++ steps') := by
  obtain ⟨w, rfl⟩ := h
  obtain ⟨w', rfl⟩ := h'
  exact ⟨w + w', rfl⟩

theorem nest {steps : List DyckStep} (h : IsDyck steps) : IsDyck (.U :: (steps ++ [.D])) := by
  obtain ⟨w, rfl⟩ := h
  exact ⟨w.nest, rfl⟩

theorem staysOpen {after : List Char} (h : IsDyck (nesting false after)) : StaysOpen after := by
  obtain ⟨w, hw⟩ := h
  rw [StaysOpen, ← hw]
  exact w.count_D_le_count_U

/-- There is always a step down for a step up. -/
theorem not_parenOpen {cs : List Char} (h : IsDyck (nesting false cs)) : ¬ ParenOpen cs := by
  rintro ⟨before, after, rfl, hout, hopen⟩
  obtain ⟨w, hw⟩ := h
  rw [nesting_append_paren hout] at hw
  have htotal := w.count_U_eq_count_D
  have hbefore := w.count_D_le_count_U (nesting false before).length
  have hafter := hopen (nesting false after).length
  rw [hw, List.count_append, List.count_append, List.count_cons_self,
    List.count_cons_of_ne (by decide)] at htotal
  rw [hw, List.take_left] at hbefore
  rw [List.take_length] at hafter
  omega

/-- Behind steps that are balanced a step down is one too many. -/
theorem not_append_down {steps rest : List DyckStep} (h : IsDyck steps) :
    ¬ IsDyck (steps ++ .D :: rest) := by
  rintro ⟨w, hw⟩
  obtain ⟨v, rfl⟩ := h
  have hprefix := w.count_D_le_count_U (v.toList ++ [DyckStep.D]).length
  have hsteps : v.toList ++ .D :: rest = (v.toList ++ [.D]) ++ rest := by simp
  rw [hw, hsteps, List.take_left, List.count_append, List.count_append,
    v.count_U_eq_count_D] at hprefix
  simp at hprefix

end IsDyck

/-! ### What the walk holds -/

/-- The places of the parentheses that are open behind a text that begins at `origin`, innermost
first. -/
inductive Opens (origin : Nat) : List Char → List Nat → Prop where
  | nil {before} (h : IsDyck (nesting false before)) : Opens origin before []
  | cons {before after parens} (h : Opens origin before parens)
      (hout : bracketOpen before = false) (hafter : IsDyck (nesting false after)) :
      Opens origin (before ++ '(' :: after) ((origin + byteLength before) :: parens)

namespace Opens

variable {origin i : Nat} {before : List Char} {parens : List Nat}

/-- What is closed in itself changes nothing. -/
theorem append (h : Opens origin before parens) {cs : List Char}
    (hcs : IsDyck (nesting (bracketOpen before) cs)) : Opens origin (before ++ cs) parens := by
  cases h with
  | nil h =>
    refine .nil ?_
    rw [nesting_append]
    exact h.append hcs
  | cons h hout hafter =>
    rw [List.append_assoc, List.cons_append]
    refine .cons h hout ?_
    rw [bracketOpen_append_paren hout] at hcs
    rw [nesting_append]
    exact hafter.append hcs

/-- A parenthesis that closes pairs with the innermost one that is open. -/
theorem close (h : Opens origin before (i :: parens)) (hout : bracketOpen before = false) :
    Opens origin (before ++ [')']) parens := by
  cases h with
  | @cons before after _ h hbefore hafter =>
    rw [List.append_assoc]
    refine h.append ?_
    rw [bracketOpen_append_paren hbefore] at hout
    have hnest : nesting false ('(' :: (after ++ [')'])) =
        .U :: (nesting false after ++ [.D]) := by
      rw [← nesting_concat hout]
      rfl
    rw [hbefore, List.cons_append, hnest]
    exact hafter.nest

end Opens

/-- The open bracket and the open parentheses behind a text that begins at `origin`, up to the
end of which nothing is wrong. -/
structure Scanned (origin : Nat) (before : List Char) (bracket : Option Nat)
    (parens : List Nat) : Prop where
  brackets : ∃ n, before.filter isBracket = alternating n ++ if bracket.isSome then ['['] else []
  place : ∀ i, bracket = some i → ∃ front back, before = front ++ '[' :: back ∧
    i = origin + byteLength front ∧ ∀ c ∈ back, isBracket c = false
  parens : Opens origin before parens

namespace Scanned

variable {origin i : Nat} {before : List Char} {bracket : Option Nat} {parens : List Nat}
  {c : Char}

theorem nil (origin : Nat) : Scanned origin [] none [] :=
  ⟨⟨0, rfl⟩, by rintro i ⟨⟩, .nil .nil⟩

theorem bracketOpen_eq (h : Scanned origin before bracket parens) :
    bracketOpen before = bracket.isSome := by
  obtain ⟨n, hn⟩ := h.brackets
  rw [bracketOpen, hn]
  cases bracket with
  | some i => simp
  | none => simpa using getLast?_alternating_ne n

/-- Characters that neither open nor close anything are passed. -/
theorem pass (h : Scanned origin before bracket parens) (hc : isBracket c = false)
    (hparen : bracket = none → c ≠ '(' ∧ c ≠ ')') :
    Scanned origin (before ++ [c]) bracket parens where
  brackets := by
    rw [List.filter_append, List.filter_singleton, hc]
    simpa using h.brackets
  place i hi := by
    obtain ⟨front, back, rfl, rfl, hback⟩ := h.place i hi
    refine ⟨front, back ++ [c], by simp, rfl, fun d hd => ?_⟩
    rcases List.mem_append.1 hd with hd | hd
    · exact hback d hd
    · rwa [List.mem_singleton.1 hd]
  parens := by
    refine h.parens.append ?_
    rw [nesting_singleton fun hout => hparen ?_]
    · exact .nil
    · rw [h.bracketOpen_eq] at hout
      simpa using hout

theorem openBracket (h : Scanned origin before none parens) :
    Scanned origin (before ++ ['[']) (some (origin + byteLength before)) parens where
  brackets := by
    obtain ⟨n, hn⟩ := h.brackets
    refine ⟨n, ?_⟩
    rw [List.filter_append, hn, List.append_assoc]
    rfl
  place i hi := by
    obtain rfl := Option.some.inj hi
    exact ⟨before, [], rfl, rfl, fun c hc => absurd hc List.not_mem_nil⟩
  parens := h.parens.append .nil

theorem closeBracket (h : Scanned origin before (some i) parens) :
    Scanned origin (before ++ [']']) none parens where
  brackets := by
    obtain ⟨n, hn⟩ := h.brackets
    refine ⟨n + 1, ?_⟩
    rw [List.filter_append, hn, alternating_concat, List.append_assoc, List.append_assoc]
    rfl
  place i hi := by cases hi
  parens := h.parens.append .nil

theorem openParen (h : Scanned origin before none parens) :
    Scanned origin (before ++ ['(']) none ((origin + byteLength before) :: parens) where
  brackets := by
    rw [List.filter_append, show List.filter isBracket ['('] = [] from rfl, List.append_nil]
    exact h.brackets
  place i hi := by cases hi
  parens := .cons h.parens h.bracketOpen_eq .nil

theorem closeParen (h : Scanned origin before none (i :: parens)) :
    Scanned origin (before ++ [')']) none parens where
  brackets := by
    rw [List.filter_append, show List.filter isBracket [')'] = [] from rfl, List.append_nil]
    exact h.brackets
  place i hi := by cases hi
  parens := h.parens.close h.bracketOpen_eq

/-- Nothing is open behind a well nested text. -/
theorem wellNested (h : Scanned origin before none []) : WellNested before := by
  obtain ⟨n, hn⟩ := h.brackets
  cases h.parens with
  | nil hparens => exact ⟨⟨n, by simpa using hn⟩, hparens⟩

/-- Outside of brackets the parentheses can be closed. -/
theorem mendable_outside (h : Scanned origin before none parens) : Mendable before := by
  induction parens generalizing before with
  | nil => exact ⟨[], by rw [List.append_nil]; exact h.wellNested⟩
  | cons i parens ih => exact (ih h.closeParen).of_append

/-- **Closing what is open mends the text.** -/
theorem mendable (h : Scanned origin before bracket parens) : Mendable before := by
  -- The bracket goes first, since inside of it no parenthesis closes.
  cases bracket with
  | none => exact h.mendable_outside
  | some i => exact h.closeBracket.mendable_outside.of_append

/-- **These characters cannot be mended.** -/
theorem not_mendable (h : Scanned origin before bracket parens) {kind : ParseError.Kind}
    (hc : Breaks before c kind) : ¬ Mendable (before ++ [c]) := by
  rintro ⟨rest, ⟨m, hm⟩, hparens⟩
  obtain ⟨n, hn⟩ := h.brackets
  rw [List.append_assoc, List.filter_append, hn] at hm
  cases hc with
  | bracketInside hin =>
    rw [h.bracketOpen_eq] at hin
    rw [hin, if_pos rfl, List.append_assoc] at hm
    obtain ⟨k, hk⟩ := exists_eq_alternating hm.symm
    cases k <;> cases hk
  | closingBracket hout =>
    rw [h.bracketOpen_eq] at hout
    rw [hout, if_neg Bool.false_ne_true, List.append_nil] at hm
    obtain ⟨k, hk⟩ := exists_eq_alternating hm.symm
    cases k <;> cases hk
  | closingParen hout hparen =>
    rw [List.append_assoc, nesting_append, hout] at hparens
    cases h.parens with
    | nil hdyck => exact hdyck.not_append_down hparens
    | cons _ hbefore hafter => exact hparen ⟨_, _, rfl, hbefore, hafter.staysOpen⟩

/-- **A character is read, or nothing can mend it.** -/
theorem step (h : Scanned origin before bracket parens) (c : Char) :
    (∃ bracket' parens', Scanned origin (before ++ [c]) bracket' parens' ∧
      ∀ cs, checkBalance bracket parens (origin + byteLength before) (c :: cs) =
        checkBalance bracket' parens' (origin + byteLength before + c.utf8Size) cs) ∨
    ∃ kind, Breaks before c kind ∧
      ∀ cs, checkBalance bracket parens (origin + byteLength before) (c :: cs) =
        .error (errorAt kind (origin + byteLength before) c) := by
  by_cases hopen : c = '['
  · subst hopen
    cases bracket with
    | some i => exact .inr ⟨_, .bracketInside h.bracketOpen_eq, fun _ => rfl⟩
    | none => exact .inl ⟨_, _, h.openBracket, fun _ => rfl⟩
  by_cases hclose : c = ']'
  · subst hclose
    cases bracket with
    | some i => exact .inl ⟨_, _, h.closeBracket, fun _ => rfl⟩
    | none => exact .inr ⟨_, .closingBracket h.bracketOpen_eq, fun _ => rfl⟩
  have hbracket : isBracket c = false := by simp [isBracket, hopen, hclose]
  cases bracket with
  | some i =>
    refine .inl ⟨_, _, h.pass hbracket (by rintro ⟨⟩), fun cs => ?_⟩
    rw [checkBalance, if_neg hopen, if_neg hclose]
  | none =>
    by_cases hup : c = '('
    · subst hup
      refine .inl ⟨_, _, h.openParen, fun cs => ?_⟩
      rw [checkBalance_outside, if_neg hopen, if_neg hclose, if_pos rfl]
    by_cases hdown : c = ')'
    · subst hdown
      cases parens with
      | nil =>
        cases h.parens with
        | nil hdyck =>
          exact .inr ⟨_, .closingParen h.bracketOpen_eq hdyck.not_parenOpen, fun _ => rfl⟩
      | cons i parens =>
        refine .inl ⟨_, _, h.closeParen, fun cs => ?_⟩
        rw [checkBalance_outside, if_neg hopen, if_neg hclose, if_neg hup, if_pos rfl]
    · refine .inl ⟨_, _, h.pass hbracket fun _ => ⟨hup, hdown⟩, fun cs => ?_⟩
      rw [checkBalance_outside, if_neg hopen, if_neg hclose, if_neg hup, if_neg hdown]

/-- **At the end a text is well nested, or something is open.** -/
theorem finish (h : Scanned origin before bracket parens) (position : Nat) :
    checkBalance bracket parens position [] = .ok () ∧ WellNested before ∨
    ∃ front c back kind, before = front ++ c :: back ∧ LeftOpen front back c kind ∧
      checkBalance bracket parens position [] =
        .error (errorAt kind (origin + byteLength front) c) := by
  cases bracket with
  | some i =>
    obtain ⟨front, back, htext, rfl, hback⟩ := h.place i rfl
    exact .inr ⟨front, _, back, _, htext, .bracket hback, rfl⟩
  | none =>
    cases parens with
    | nil => exact .inl ⟨rfl, h.wellNested⟩
    | cons i parens =>
      have hend := h.bracketOpen_eq
      cases h.parens with
      | cons _ hout hafter =>
        exact .inr ⟨_, _, _, _, rfl, .paren hend hout hafter.staysOpen hafter.not_parenOpen, rfl⟩

/-- **The walk accepts what is well nested, and tells the fault of what is not.** -/
theorem wellNested_or_isFault (after : List Char) (h : Scanned origin before bracket parens) :
    checkBalance bracket parens (origin + byteLength before) after = .ok () ∧
      WellNested (before ++ after) ∨
    ∃ e, checkBalance bracket parens (origin + byteLength before) after = .error e ∧
      IsFault origin (before ++ after) e := by
  -- On what is still to be read, for all that the walk may hold on the way.
  induction after generalizing before bracket parens with
  | nil =>
    rw [List.append_nil]
    rcases h.finish (origin + byteLength before) with
      hok | ⟨front, c, back, kind, rfl, hopen, herror⟩
    · exact .inl hok
    · refine .inr ⟨_, herror, front, c, back, rfl, rfl, ?_, rfl, .inr ⟨h.mendable, hopen⟩⟩
      cases hopen <;> rfl
  | cons c after ih =>
    rcases h.step c with ⟨bracket', parens', hnext, hwalk⟩ | ⟨kind, hbreaks, hwalk⟩
    · have hrest := ih hnext
      rw [byteLength_append, ← Nat.add_assoc, List.append_assoc] at hrest
      rw [hwalk]
      exact hrest
    · refine .inr ⟨_, hwalk after, before, c, after, rfl, rfl, ?_, rfl,
        .inl ⟨h.mendable, h.not_mendable hbreaks, hbreaks⟩⟩
      cases hbreaks <;> rfl

end Scanned

/-- A text with a fault is not well nested. -/
theorem IsFault.not_wellNested {origin : Nat} {text : List Char} {e : ParseError}
    (h : IsFault origin text e) : ¬ WellNested text := by
  rintro ⟨⟨n, hn⟩, hparens⟩
  obtain ⟨before, c, after, rfl, -, -, -, ⟨-, hbreaks, -⟩ | ⟨-, hopen⟩⟩ := h
  · refine hbreaks ⟨after, ?_⟩
    rw [List.append_assoc]
    exact ⟨⟨n, hn⟩, hparens⟩
  · generalize e.kind = kind at hopen
    cases hopen with
    | bracket hafter =>
      refine getLast?_alternating_ne n ?_
      have hfilter : after.filter isBracket = [] := by simpa using hafter
      rw [← hn, List.filter_append, List.filter_cons_of_pos rfl, hfilter, List.getLast?_append]
      rfl
    | paren _ hout hstays _ => exact hparens.not_parenOpen ⟨before, after, rfl, hout, hstays⟩

/-- What the walk tells of the whole text, and so what cutting it gives. -/
theorem split_or_isFault (cs : List Char) :
    (∃ ss, split cs = .ok ss) ∧ WellNested (trim cs) ∨
    ∃ e, split cs = .error e ∧ IsFault (startOf cs) (trim cs) e := by
  rcases (Scanned.nil (startOf cs)).wellNested_or_isFault (trim cs) with
    ⟨hok, hnested⟩ | ⟨e, herror, hfault⟩
  · exact .inl ⟨⟨_, split_eq_ok_iff.2 ⟨hok, rfl⟩⟩, hnested⟩
  · have hwalk : checkBalance none [] (startOf cs) (trim cs) = .error e := herror
    refine .inr ⟨e, ?_, hfault⟩
    rw [split, hwalk]
    rfl

theorem isFault_of_split {cs : List Char} {e : ParseError} (h : split cs = .error e) :
    IsFault (startOf cs) (trim cs) e := by
  rcases split_or_isFault cs with ⟨⟨ss, hok⟩, -⟩ | ⟨e', herror, hfault⟩
  · rw [h] at hok
    cases hok
  · rw [h] at herror
    exact Except.error.inj herror ▸ hfault

/-- **An expression is cut if and only if it is well nested.**  The error of any other is its
first character that nothing can mend, or else what is left open at its end. -/
theorem split_balance (source : String) :
    ((∃ ss, split source.toList = .ok ss) ↔ WellNested (trim source.toList)) ∧
    ∀ e, split source.toList = .error e →
      IsFault (startOf source.toList) (trim source.toList) e := by
  refine ⟨⟨?_, fun hnested => ?_⟩, fun e => isFault_of_split⟩
  · rintro ⟨ss, hok⟩
    rcases split_or_isFault source.toList with ⟨-, hnested⟩ | ⟨e, herror, -⟩
    · exact hnested
    · rw [hok] at herror
      cases herror
  · rcases split_or_isFault source.toList with ⟨hok, -⟩ | ⟨e, -, hfault⟩
    · exact hok
    · exact absurd hnested hfault.not_wellNested

/-- An expression as in `split_balance` that is not well nested: of three closing parentheses, one
stands inside of brackets and does not count, one pairs, and nothing can mend the last one. -/
theorem split_balance_closing :
    split " ü([)])) ".toList = .error ⟨.unbalancedParenthesis, 8, 9, ")"⟩ ∧
    IsFault (startOf " ü([)])) ".toList) (trim " ü([)])) ".toList)
      ⟨.unbalancedParenthesis, 8, 9, ")"⟩ := by
  have hsplit : split " ü([)])) ".toList = .error ⟨.unbalancedParenthesis, 8, 9, ")"⟩ := by
    rfl
  exact ⟨hsplit, (split_balance " ü([)])) ").2 _ hsplit⟩

end Expression
end DiceFormula
