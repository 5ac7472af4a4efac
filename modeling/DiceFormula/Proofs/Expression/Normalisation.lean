/-
# Accepted texts and their formulas

The formula of an accepted text is again accepted, and is then the formula of what is read
(`Chain.normalises_of_settles`), if this holds of the values that it writes: a value settles if
its text is a literal for a value with the same text (`Scalar.Settles`), and a count settles if
its digits are (`Scalar.SettlesCount`).  Everything else that a formula writes is read back as
it is.  In exact arithmetic all values and counts settle, and every accepted text normalises
(`Chain.normalises`).

The characters of an accepted text are few (`Chain.isReadable_of_parse`).  A letter other than
`d` is none of them, so a value whose text has another letter in it never settles, and neither
does its chain (`Chain.not_normalises_of_mem`).
-/

import DiceFormula.Proofs.Expression.Joining
import DiceFormula.Proofs.Die.Checked
import DiceFormula.Proofs.Expression.Spelling

namespace DiceFormula

variable {α : Type} [Scalar α]

/-- The text of a value is a literal for a finite value with the same text. -/
def Scalar.Settles (x : α) : Prop :=
  ∃ (negative : Bool) (k n : ℕ), shortText x = Exact.signed negative (Digits.pointed k n) ∧
    isFinite (ofDecimal ⟨negative, n, k⟩ : α) = true ∧
    shortText (ofDecimal ⟨negative, n, k⟩ : α) = shortText x

/-- The count is one, or its digits are those of a finite count with the same digits. -/
def Scalar.SettlesCount (x : α) : Prop :=
  trunc x ≤ ofInt 1 ∨ ∃ n : ℕ, text (trunc x) = Digits.ofNat n ∧
    isFinite (ofDecimal ⟨false, n, 0⟩ : α) = true ∧
    ¬ trunc (ofDecimal ⟨false, n, 0⟩ : α) < ofInt 1 ∧
    ¬ trunc (ofDecimal ⟨false, n, 0⟩ : α) ≤ ofInt 1 ∧
    text (trunc (ofDecimal ⟨false, n, 0⟩ : α)) = text (trunc x)

/-- The value of a single fixed value. -/
def Pool.value? : Pool α → Option α
  | .single (.fixed x) => some x
  | _ => none

/-- The fixed values of a chain, without those in counts. -/
def Chain.values (c : Chain α) : List α := c.links.filterMap fun l => l.pool.value?

omit [Scalar α] in
theorem Pool.value?_eq_some_iff {p : Pool α} {x : α} :
    p.value? = some x ↔ p = .single (.fixed x) := by
  cases p with
  | single d => cases d <;> simp [value?]
  | counted count value => simp [value?]

omit [Scalar α] in
theorem Chain.mem_values_iff {c : Chain α} {x : α} :
    x ∈ c.values ↔ ∃ l ∈ c.links, l.pool = .single (.fixed x) := by
  simp only [values, List.mem_filterMap, Pool.value?_eq_some_iff]

/-! ### What is read -/

/-- The pools that nodes denote. -/
inductive Pool.IsNode : Pool α → Prop where
  | fixed {x : α} (hx : Scalar.isFinite x = true) : IsNode (.single (.fixed x))
  | uniform (u : Uniform) : IsNode (.single (.uniform u))
  | times {n : α} (hn : Scalar.isFinite n = true) (hone : ¬ Scalar.trunc n < Scalar.ofInt 1)
      (u : Uniform) : IsNode (.counted (.fixed n) (.uniform u))
  | dice {w u : Uniform}
      (hok : ofCount noCustom (Die.uniform (α := α) w) (.uniform u) =
        .ok (.counted (.uniform w) (.uniform u))) :
      IsNode (.counted (.uniform w) (.uniform u))

namespace Token

/-- A token denotes a finite value or an interval. -/
theorem toDie?_eq_some {t : Token} {d : Die α} (h : t.toDie? = some d) :
    (∃ x, Scalar.isFinite x = true ∧ d = .fixed x) ∨ ∃ u, d = .uniform u := by
  cases t with
  | number literal =>
    rw [toDie?, toOption_eq_some_iff, Die.ofFixed] at h
    split_ifs at h with hfinite
    exact .inl ⟨_, hfinite, (Except.ok.inj h).symm⟩
  | die faces =>
    obtain ⟨u, -, rfl⟩ := Option.map_eq_some_iff.1 h
    exact .inr ⟨u, rfl⟩
  | interval min max =>
    obtain ⟨u, -, rfl⟩ := Option.map_eq_some_iff.1 h
    exact .inr ⟨u, rfl⟩

theorem Shape.isNode_of_pool? {s : Shape} {p : Pool α} (h : s.pool? = some p) : p.IsNode := by
  cases s with
  | one t =>
    obtain ⟨d, hd, rfl⟩ := Option.map_eq_some_iff.1 h
    obtain ⟨x, hx, rfl⟩ | ⟨u, rfl⟩ := toDie?_eq_some hd
    · exact .fixed hx
    · exact .uniform u
  | two count value =>
    simp only [pool?, Option.bind_eq_bind, Option.bind_eq_some_iff] at h
    obtain ⟨u, -, d, hd, hcount⟩ := h
    rw [toOption_eq_some_iff] at hcount
    obtain ⟨hone, rfl⟩ := Pool.ofCount_eq_ok_iff.1 hcount
    obtain ⟨x, hx, rfl⟩ | ⟨w, rfl⟩ := toDie?_eq_some hd
    · exact .times hx hone u
    · exact .dice hcount

end Token

namespace Chain

omit [Scalar α] in
theorem first_extend (c : Chain α) (ls : List (Link α)) : (c.extend ls).first = c.first := by
  induction ls generalizing c with
  | nil => rfl
  | cons l ls ih => exact ih (c.append l.operation l.pool)

/-- **What is read.**  The pools of an accepted text are those that nodes denote, and its head
is a plus. -/
theorem isNode_of_parse {s : String} {c : Chain α} (h : Chain.parse s = .ok c) :
    c.first.operation = .plus ∧ ∀ l ∈ c.links, l.pool.IsNode := by
  obtain ⟨ss, ls, -, hss, hc⟩ := parse_eq_ok_iff.1 h
  have hread : ∀ l ∈ ls, l.pool.IsNode := by
    refine ((List.forall₂_and_left ls ss).1 (hss.flip.imp fun l s hs => ⟨?_, hs⟩)).1
    obtain ⟨shape, -, hpool⟩ := Pool.exists_shape?_of_ofNode? hs.2
    exact Token.Shape.isNode_of_pool? hpool
  cases ls with
  | nil => cases hc
  | cons l ls =>
    obtain rfl := Option.some.inj hc
    obtain ⟨hl, hls⟩ := List.forall_mem_cons.1 hread
    refine ⟨by rw [first_extend]; rfl, ?_⟩
    rw [links_extend]
    exact List.forall_mem_cons.2 ⟨hl, hls⟩

end Chain

/-! ### What is read back -/

/-- A pool and its formula, which is a node that denotes the pool. -/
structure Pool.HasNode (p : Pool α) (cs : List Char) : Prop where
  write_eq : ∀ rest, p.write rest = cs ++ rest
  nodeText : Expression.NodeText cs
  ofNode?_eq : Pool.ofNode? (String.ofList cs) = some p

namespace Pool

theorem hasNode_uniform (u : Uniform) : (single (.uniform u) : Pool α).HasNode u.chars where
  write_eq rest := by rw [write, Die.write]
  nodeText := Expression.nodeText_chars u
  ofNode?_eq := ofNode?_chars u

theorem hasNode_dice {w u : Uniform}
    (hok : ofCount noCustom (Die.uniform (α := α) w) (.uniform u) =
      .ok (.counted (.uniform w) (.uniform u))) :
    (counted (.uniform w) (.uniform u) : Pool α).HasNode (w.chars ++ u.chars) where
  write_eq rest := by
    rw [write, Die.write, Die.write, List.append_assoc]
    rintro _ ⟨⟩
  nodeText := (Expression.solid_chars w).nodeText_append_chars u
  ofNode?_eq := ofNode?_dice hok

theorem hasNode_fixed {negative : Bool} {k n : ℕ}
    (hfinite : Scalar.isFinite (Scalar.ofDecimal ⟨negative, n, k⟩ : α) = true)
    (htext : Scalar.shortText (Scalar.ofDecimal ⟨negative, n, k⟩ : α) =
      Exact.signed negative (Digits.pointed k n)) :
    (single (.fixed (Scalar.ofDecimal ⟨negative, n, k⟩)) : Pool α).HasNode
      (Exact.signed negative (Digits.pointed k n)) where
  write_eq rest := by rw [write, Die.write, htext]
  nodeText := Expression.nodeText_number negative k n
  ofNode?_eq := ofNode?_number hfinite

theorem hasNode_times {n : ℕ}
    (hfinite : Scalar.isFinite (Scalar.ofDecimal ⟨false, n, 0⟩ : α) = true)
    (hone : ¬ Scalar.trunc (Scalar.ofDecimal ⟨false, n, 0⟩ : α) < Scalar.ofInt 1)
    (hmany : ¬ Scalar.trunc (Scalar.ofDecimal ⟨false, n, 0⟩ : α) ≤ Scalar.ofInt 1)
    (htext : Scalar.text (Scalar.trunc (Scalar.ofDecimal ⟨false, n, 0⟩ : α)) = Digits.ofNat n)
    (u : Uniform) :
    (counted (.fixed (Scalar.ofDecimal ⟨false, n, 0⟩)) (.uniform u) : Pool α).HasNode
      (Digits.ofNat n ++ u.chars) where
  write_eq rest := by rw [write, if_neg hmany, htext, Die.write, List.append_assoc]
  nodeText := (Expression.solid_ofNat n).nodeText_append_chars u
  ofNode?_eq := ofNode?_times hfinite hone u

/-- **The formula of what is read is read back,** as a pool with the same formula, if it writes
values that settle. -/
theorem IsNode.exists_hasNode {p : Pool α} (hp : p.IsNode)
    (hfixed : ∀ x, p = .single (.fixed x) → Scalar.Settles x)
    (hcount : ∀ x value, p = .counted (.fixed x) value → Scalar.SettlesCount x) :
    ∃ (q : Pool α) (cs : List Char), q.HasNode cs ∧ ∀ rest, p.write rest = cs ++ rest := by
  cases hp with
  | @fixed x _ =>
    obtain ⟨negative, k, n, htext, hfinite, hsame⟩ := hfixed x rfl
    refine ⟨_, _, hasNode_fixed hfinite (hsame.trans htext), fun rest => ?_⟩
    rw [write, Die.write, htext]
  | uniform u => exact ⟨_, _, hasNode_uniform u, (hasNode_uniform u).write_eq⟩
  | @times n _ _ u =>
    by_cases hle : Scalar.trunc n ≤ Scalar.ofInt 1
    · refine ⟨_, _, hasNode_uniform u, fun rest => ?_⟩
      rw [write, if_pos hle, Die.write]
    · obtain hle' | ⟨k, htext, hfinite, hone, hmany, hsame⟩ := hcount n _ rfl
      · exact absurd hle' hle
      · refine ⟨_, _, hasNode_times hfinite hone hmany (hsame.trans htext) u, fun rest => ?_⟩
        rw [write, if_neg hle, htext, Die.write, List.append_assoc]
  | dice hok => exact ⟨_, _, hasNode_dice hok, (hasNode_dice hok).write_eq⟩

end Pool

namespace Chain

/-- The formula of the chain parses to a chain with the same formula, the same length and the
same operations. -/
def Normalises (c : Chain α) : Prop :=
  ∃ c' : Chain α, Chain.parse c.text = .ok c' ∧ c'.text = c.text ∧ c'.length = c.length ∧
    c'.links.map Link.operation = c.links.map Link.operation

/-- **A chain of pools whose formulas are read back has a formula that is read back,** with the
same operations. -/
theorem exists_accepts_of_hasNode : ∀ {c : Chain α}, c.first.operation = .plus →
    (∀ l ∈ c.links, ∃ (q : Pool α) (cs : List Char), q.HasNode cs ∧
      ∀ rest, l.pool.write rest = cs ++ rest) →
      ∃ (d : Chain α) (cs : List Char), Accepts cs d.links ∧ d.first.operation = .plus ∧
        (∀ rest, d.write rest = cs ++ rest) ∧ (∀ rest, c.write rest = cs ++ rest) ∧
        d.links.map Link.operation = c.links.map Link.operation
  | .head op p, hfirst, h => by
    obtain rfl : op = .plus := hfirst
    obtain ⟨q, cs, hq, hwrite⟩ := h _ (List.mem_singleton_self _)
    have haccepts := Accepts.of_node hq.nodeText hq.ofNode?_eq
    refine ⟨.head .plus q, cs, haccepts, rfl, fun rest => ?_, fun rest => ?_, rfl⟩
    · rw [write, hq.write_eq]
    · rw [write]
      exact hwrite rest
  | .append front op p, hfirst, h => by
    rw [links_append, List.forall_mem_append] at h
    obtain ⟨d, cs, haccepts, hplus, hd, hfront, hops⟩ :=
      exists_accepts_of_hasNode (c := front) hfirst h.1
    obtain ⟨q, ds, hq, hwrite⟩ := h.2 _ (List.mem_singleton_self _)
    refine ⟨d.append op q, cs ++ op.linkText ds, ?_, ?_, fun rest => ?_, fun rest => ?_, ?_⟩
    · rw [links_append]
      exact haccepts.concat op hq.nodeText hq.ofNode?_eq
    · exact hplus
    · rw [write, hd, hq.write_eq, hq.write_eq, Operation.linkText]
      split_ifs <;> simp
    · rw [write, hfront, hwrite, hwrite, Operation.linkText]
      split_ifs <;> simp
    · rw [links_append, links_append, List.map_append, List.map_append, hops]
      rfl

/-- **An accepted text normalises if its values settle.** -/
theorem normalises_of_settles {s : String} {c : Chain α} (h : Chain.parse s = .ok c)
    (hfixed : ∀ x ∈ c.values, Scalar.Settles x)
    (hcount : ∀ l ∈ c.links, ∀ x value, l.pool = .counted (.fixed x) value →
      Scalar.SettlesCount x) : c.Normalises := by
  obtain ⟨hfirst, hread⟩ := isNode_of_parse h
  obtain ⟨d, cs, haccepts, hplus, hd, hc, hops⟩ := exists_accepts_of_hasNode hfirst fun l hl =>
    (hread l hl).exists_hasNode (fun x hpool => hfixed x (mem_values_iff.2 ⟨l, hl, hpool⟩))
      (hcount l hl)
  refine ⟨d, ?_, ?_, ?_, hops⟩
  · rw [text, hc, List.append_nil]
    exact haccepts.parse_eq (chainOf?_links hplus)
  · rw [text, text, hc, hd]
  · rw [length, length, ← List.length_map (f := Link.operation), hops, List.length_map]

/-! ### What is not read back -/

end Chain

/-- A formula leaves what follows as it is. -/
theorem Pool.IsNode.mem_write {p : Pool α} (hp : p.IsNode) {d : Char} {rest : List Char}
    (h : d ∈ rest) : d ∈ p.write rest := by
  cases hp with
  | fixed _ => exact List.mem_append_right _ h
  | uniform u => exact List.mem_append_right _ h
  | times _ _ u =>
    rw [write, Die.write]
    split_ifs
    · exact List.mem_append_right _ h
    · exact List.mem_append_right _ (List.mem_append_right _ h)
  | dice _ =>
    rw [write, Die.write, Die.write]
    · exact List.mem_append_right _ (List.mem_append_right _ h)
    · rintro _ ⟨⟩

namespace Chain

theorem mem_write {d : Char} : ∀ {c : Chain α} {rest : List Char},
    (∀ l ∈ c.links, l.pool.IsNode) → d ∈ rest → d ∈ c.write rest
  | .head op p, rest, h, hd => (h _ (List.mem_singleton_self _)).mem_write hd
  | .append front op p, rest, h, hd => by
    rw [links_append, List.forall_mem_append] at h
    have hp : p.IsNode := h.2 _ (List.mem_singleton_self _)
    rw [write]
    refine mem_write h.1 ?_
    split_ifs
    · have hclose := List.mem_cons_of_mem ')' hd
      exact List.mem_cons_of_mem _ (List.mem_cons_of_mem _ (hp.mem_write hclose))
    · exact List.mem_cons_of_mem _ (hp.mem_write hd)

/-- The formula of a chain holds those of its pools. -/
theorem mem_write_of_mem_links {d : Char} {l : Link α} (hd : ∀ rest, d ∈ l.pool.write rest) :
    ∀ {c : Chain α} (rest : List Char), (∀ l ∈ c.links, l.pool.IsNode) → l ∈ c.links →
      d ∈ c.write rest
  | .head op p, rest, _, hl => by
    obtain rfl := List.mem_singleton.1 hl
    exact hd rest
  | .append front op p, rest, h, hl => by
    rw [links_append] at h hl
    rw [List.forall_mem_append] at h
    rw [write]
    rcases List.mem_append.1 hl with hl | hl
    · exact mem_write_of_mem_links hd _ h.1 hl
    · obtain rfl := List.mem_singleton.1 hl
      refine mem_write h.1 ?_
      split_ifs
      · exact List.mem_cons_of_mem _ (List.mem_cons_of_mem _ (hd _))
      · exact List.mem_cons_of_mem _ (hd _)

open Expression in
/-- **A chain does not normalise if it writes a value with a character that is not readable.** -/
theorem not_normalises_of_mem {s : String} {c : Chain α} (h : Chain.parse s = .ok c) {x : α}
    {d : Char} (hx : x ∈ c.values) (hmem : d ∈ Scalar.shortText x) (hd : isReadable d = false) :
    ¬ c.Normalises := by
  obtain ⟨l, hl, hpool⟩ := mem_values_iff.1 hx
  rintro ⟨c', hparse, -⟩
  have hread := isReadable_of_parse hparse d
  rw [text, String.toList_ofList] at hread
  have hwrite : d ∈ c.write [] := by
    refine mem_write_of_mem_links (fun rest => ?_) [] (isNode_of_parse h).2 hl
    rw [hpool, Pool.write, Die.write]
    exact List.mem_append_left rest hmem
  rw [hread hwrite] at hd
  cases hd

end Chain

/-! ### Exact arithmetic -/

theorem Scalar.settles_rat (x : ℚ) : Settles x := by
  obtain ⟨negative, k, n, htext, hvalue⟩ := exists_shortText_eq x
  have hread : (ofDecimal ⟨negative, n, k⟩ : ℚ) = toTenths x := hvalue
  exact ⟨negative, k, n, htext, rfl, by rw [hread, shortText_toTenths]⟩

theorem Scalar.settlesCount_rat (x : ℚ) : SettlesCount x := by
  refine or_iff_not_imp_left.2 fun hmany => ?_
  obtain ⟨n, hn⟩ := mem_wholeNumbers.1 (trunc_mem_wholeNumbers x)
  rw [← hn, ofInt_rat, Int.cast_le, not_le] at hmany
  obtain ⟨k, rfl⟩ := Int.eq_ofNat_of_zero_le (by omega : 0 ≤ n)
  have hread : trunc (ofDecimal ⟨false, k, 0⟩ : ℚ) = (k : ℤ) := by
    have hvalue : (ofDecimal ⟨false, k, 0⟩ : ℚ) = k := Decimal.toRat_natCast k
    rw [hvalue, ← Int.cast_natCast, trunc_intCast]
  refine ⟨k, ?_, rfl, ?_, ?_, ?_⟩
  · rw [← hn]
    exact text_intCast k
  · rw [hread, ofInt_rat, Int.cast_lt]
    omega
  · rw [hread, ofInt_rat, Int.cast_le]
    omega
  · rw [hread, hn]

/-- **In exact arithmetic every accepted text normalises.** -/
theorem Chain.normalises {s : String} {c : Chain ℚ} (h : Chain.parse s = .ok c) : c.Normalises :=
  normalises_of_settles h (fun x _ => Scalar.settles_rat x) fun _ _ x _ _ =>
    Scalar.settlesCount_rat x

end DiceFormula
