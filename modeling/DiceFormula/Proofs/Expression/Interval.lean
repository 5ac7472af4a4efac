/-
# The readers of an interval

The text of an interval can be read by itself (`Uniform.parse`), as a node (`Pool.ofNode?`) and as
an expression (`Chain.parse`).  The first two pass over the same blanks, read the same tokens and
refuse the same ends, so they take the same texts (`Uniform.parse_eq_ok_iff_ofNode?`).  The third
drops more kinds of blanks at the ends, and cuts what is left at its operators before anything is
read.  The signs of an interval stand inside its brackets, where nothing cuts, so a text that the
first two take is a single node, and the expression is the chain that rolls the interval once
(`Uniform.readers_agree`).

What is printed is a token without blanks around it, and reads back.
-/

import DiceFormula.Proofs.Expression.Akin
import DiceFormula.Proofs.Expression.Joining
import DiceFormula.Proofs.Expression.Spelling

namespace DiceFormula

theorem mapError_eq_ok_iff {ε ε' β : Type} {f : ε → ε'} {x : Except ε β} {b : β} :
    x.mapError f = .ok b ↔ x = .ok b := by
  cases x with
  | error e => exact ⟨by rintro ⟨⟩, by rintro ⟨⟩⟩
  | ok a => exact ⟨by rintro ⟨⟩; rfl, by rintro ⟨⟩; rfl⟩

/-- An interval is read from a token that denotes it. -/
theorem Uniform.parse_eq_ok_iff {α : Type} {text : String} {u : Uniform} :
    (parse text : Except (FormulaError α) Uniform) = .ok u ↔
      ∃ t, Token.shape? text.toList = some (.one t) ∧ t.toUniform? = some u := by
  rw [parse]
  split
  · rename_i faces hshape
    rw [mapError_eq_ok_iff, hshape, ofFaces_eq_ok_iff]
    constructor
    · intro h
      exact ⟨_, rfl, toOption_eq_some_iff.2 (ofFaces_eq_ok_iff.2 h)⟩
    · rintro ⟨_, ⟨⟩, h⟩
      exact ofFaces_eq_ok_iff.1 (toOption_eq_some_iff.1 h)
  · rename_i min max hshape
    rw [mapError_eq_ok_iff, hshape, ofInterval_eq_ok_iff]
    constructor
    · intro h
      exact ⟨_, rfl, toOption_eq_some_iff.2 (ofInterval_eq_ok_iff.2 h)⟩
    · rintro ⟨_, ⟨⟩, h⟩
      exact ofInterval_eq_ok_iff.1 (toOption_eq_some_iff.1 h)
  · rename_i hdie hinterval
    refine iff_of_false (by rintro ⟨⟩) ?_
    rintro ⟨t, hshape, h⟩
    cases t with
    | number => cases h
    | die faces => exact hdie faces hshape
    | interval min max => exact hinterval min max hshape

variable {α : Type} [Scalar α]

/-! ### By itself and as a node -/

theorem Token.toDie?_eq_uniform_iff {t : Token} {u : Uniform} :
    (t.toDie? : Option (Die α)) = some (.uniform u) ↔ t.toUniform? = some u := by
  have hmap : t.toUniform?.map Die.uniform = some (.uniform u : Die α) ↔
      t.toUniform? = some u := by
    rw [Option.map_eq_some_iff]
    constructor
    · rintro ⟨_, h, ⟨⟩⟩
      exact h
    · exact fun h => ⟨u, h, rfl⟩
  cases t with
  | number literal =>
    refine iff_of_false (fun h => ?_) (by rintro ⟨⟩)
    cases Die.ofFixed_eq_ok (toOption_eq_some_iff.1 h)
  | die | interval => exact hmap

/-- Two tokens denote a pool with a count, so what denotes an interval alone is one token. -/
theorem Token.Shape.pool?_eq_uniform_iff {s : Shape} {u : Uniform} :
    (s.pool? : Option (Pool α)) = some (.single (.uniform u)) ↔
      ∃ t, s = .one t ∧ t.toUniform? = some u := by
  cases s with
  | one t =>
    rw [pool?, Option.map_eq_some_iff]
    constructor
    · rintro ⟨_, h, ⟨⟩⟩
      exact ⟨t, rfl, toDie?_eq_uniform_iff.1 h⟩
    · rintro ⟨_, ⟨⟩, h⟩
      exact ⟨_, toDie?_eq_uniform_iff.2 h, rfl⟩
  | two count value =>
    refine iff_of_false (fun h => ?_) (by rintro ⟨_, ⟨⟩, -⟩)
    simp only [pool?, Option.bind_eq_bind, Option.bind_eq_some_iff] at h
    obtain ⟨w, -, c, -, hcount⟩ := h
    cases (Pool.ofCount_eq_ok_iff.1 (toOption_eq_some_iff.1 hcount)).2

/-- **An interval and a node of an interval are read from the same texts.** -/
theorem Uniform.parse_eq_ok_iff_ofNode? {text : String} {u : Uniform} :
    (parse text : Except (FormulaError α) Uniform) = .ok u ↔
      Pool.ofNode? text = some (.single (.uniform u) : Pool α) := by
  rw [parse_eq_ok_iff, Pool.ofNode?, Option.bind_eq_some_iff]
  constructor
  · rintro ⟨t, hshape, h⟩
    exact ⟨_, hshape, Token.Shape.pool?_eq_uniform_iff.2 ⟨t, rfl, h⟩⟩
  · rintro ⟨s, hshape, h⟩
    obtain ⟨t, rfl, hu⟩ := Token.Shape.pool?_eq_uniform_iff.1 h
    exact ⟨t, hshape, hu⟩

/-! ### As an expression -/

namespace Token

theorem InnerSpaces.not_mem {s : List Char} (h : InnerSpaces s) {c : Char} (hc : c ∈ s) :
    c ∉ ['[', ']', '(', ')'] := by
  have hspace := h c hc
  rw [isInnerSpace, Bool.or_eq_true, beq_iff_eq, beq_iff_eq] at hspace
  rcases hspace with rfl | rfl <;> decide

theorem Integer.not_mem {n : Int} {cs : List Char} (h : Integer n cs) {c : Char} (hc : c ∈ cs) :
    c ∉ ['[', ']', '(', ')'] := by
  obtain ⟨negative, hds, -, -⟩ := h
  exact Expression.not_mem_of_mem_signed hds hc

/-- **The text of a die or an interval is the text of a node:** nothing in it cuts. -/
theorem Lexeme.nodeText {t : Token} {cs : List Char} (h : t.Lexeme cs) (ht : ∀ l, t ≠ .number l) :
    Expression.NodeText cs := by
  cases h with
  | number => exact absurd rfl (ht _)
  | @die ds n hds =>
    have hsolid : Expression.Solid ('d' :: ds) :=
      .inert rfl (.of_inert fun c hc => Expression.isInert_of_isDigit (hds c hc))
    exact .signed false hsolid (List.cons_ne_nil _ _)
  | @interval min max as bs s₁ s₂ s₃ s₄ hmin hmax h₁ h₂ h₃ h₄ =>
    have hinner : ∀ c ∈ s₁ ++ as ++ s₂ ++ ',' :: (s₃ ++ bs ++ s₄), c ∉ ['[', ']', '(', ')'] := by
      intro c hc
      simp only [List.mem_append, List.mem_cons] at hc
      rcases hc with ((hc | hc) | hc) | rfl | (hc | hc) | hc
      · exact h₁.not_mem hc
      · exact hmin.not_mem hc
      · exact h₂.not_mem hc
      · decide
      · exact h₃.not_mem hc
      · exact hmax.not_mem hc
      · exact h₄.not_mem hc
    have htext : s₁ ++ as ++ s₂ ++ ',' :: (s₃ ++ bs ++ s₄ ++ [']']) =
        s₁ ++ as ++ s₂ ++ ',' :: (s₃ ++ bs ++ s₄) ++ [']'] :=
      (List.append_assoc _ (',' :: (s₃ ++ bs ++ s₄)) [']']).symm
    rw [htext]
    exact .signed false (.bracket hinner .nil) (List.cons_ne_nil _ _)

end Token

/-- **A node between spaces is an expression of its own,** if nothing in it cuts. -/
theorem Chain.parse_node_spaces {before cs after : List Char} {p : Pool α}
    (hcs : Expression.NodeText cs) (hbefore : Token.Spaces before) (hafter : Token.Spaces after)
    (hp : Pool.ofNode? (String.ofList (before ++ cs ++ after)) = some p) :
    Chain.parse (String.ofList (before ++ cs ++ after)) = .ok (.ofPool p) := by
  rw [Pool.ofNode?_spaces hbefore hafter] at hp
  refine (Accepts.of_node hcs hp).parse_eq_of_trim ?_ rfl
  rw [String.toList_ofList, Expression.trim_blanks hbefore.isBlank hafter.isBlank]
  exact trim_eq_self hcs.exists_cons hcs.exists_concat

namespace Uniform

/-- What is read as an interval is a single node of an expression. -/
theorem parse_chain {text : String} {u : Uniform}
    (h : (parse text : Except (FormulaError α) Uniform) = .ok u) :
    Chain.parse text = .ok (.ofDie (.uniform u) : Chain α) := by
  have hp := parse_eq_ok_iff_ofNode?.1 h
  obtain ⟨t, hshape, hu⟩ := parse_eq_ok_iff.1 h
  have hnumber : ∀ l, t ≠ .number l := by
    rintro l rfl
    cases hu
  obtain ⟨cs, rfl⟩ : ∃ cs, text = String.ofList cs := ⟨_, String.ofList_toList.symm⟩
  rw [String.toList_ofList] at hshape
  cases Token.spelled_of_shape? hshape with
  | one ht hbefore hafter =>
    exact Chain.parse_node_spaces (ht.nodeText hnumber) hbefore hafter hp

/-- **The readers of an interval agree, and read back what is printed.**  A text is read as an
interval exactly if its node is that interval, rolled once, and its expression is then the chain
that rolls it once.  The formula of any interval, which is any that can be built, is read as that
interval. -/
theorem readers_agree :
    (∀ (text : String) (u : Uniform),
      ((parse text : Except (FormulaError α) Uniform) = .ok u ↔
        Pool.ofNode? text = some (.single (.uniform u) : Pool α)) ∧
      ((parse text : Except (FormulaError α) Uniform) = .ok u →
        Chain.parse text = .ok (.ofDie (.uniform u) : Chain α))) ∧
    ∀ u : Uniform, (parse (Die.uniform u : Die α).text : Except (FormulaError α) Uniform) = .ok u := by
  refine ⟨fun text u => ⟨parse_eq_ok_iff_ofNode?, parse_chain⟩, fun u => ?_⟩
  have htext : (Die.uniform u : Die α).text = String.ofList u.chars := by
    rw [Die.text, Die.write, List.append_nil]
  rw [htext, parse_eq_ok_iff_ofNode?]
  exact Pool.ofNode?_chars u

/-- The hypothesis in `readers_agree` is satisfiable: the text of an interval with a sign in it,
and blanks of several kinds. -/
theorem readers_agree_signed :
    let text := " [ -3 ,\t5 ]\n"
    let u : Uniform := ⟨-3, 5, by decide, by decide, by decide⟩
    (parse text : Except (FormulaError ℚ) Uniform) = .ok u ∧
      Pool.ofNode? text = some (.single (.uniform u) : Pool ℚ) ∧
      Chain.parse text = .ok (.ofDie (.uniform u) : Chain ℚ) ∧
      (parse (Die.uniform u : Die ℚ).text : Except (FormulaError ℚ) Uniform) = .ok u := by
  intro text u
  have h : (parse text : Except (FormulaError ℚ) Uniform) = .ok u :=
    toOption_eq_some_iff.1 (by decide +kernel)
  obtain ⟨hread, hprinted⟩ := readers_agree (α := ℚ)
  exact ⟨h, (hread text u).1.1 h, (hread text u).2 h, hprinted u⟩

end Uniform
end DiceFormula
