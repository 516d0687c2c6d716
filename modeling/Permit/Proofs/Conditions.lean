-- What the text of a single condition reads back as. Where the rule has a name of the grammar
-- it is the condition and nothing else; any other name is not told from the rest of the text.
import Permit.Proofs.Rereading

namespace Permit

open Expression Expression.Grammar Json

theorem Condition.eq_of {a b : Condition} (rule : a.rule = b.rule) (params : a.params = b.params) :
    a = b := by
  cases a
  cases b
  congr

/-! ## The only reading of a call -/

namespace Expression.Grammar

theorem write_eq (c : Condition) :
    c.write = c.rule.toList ++ '(' :: (Condition.writeParams c.params ++ [')']) := by
  simp [Condition.write]

/-- Printed parameters are a list of the grammar where enough nesting is allowed. -/
theorem enclosed_writeParams (c : Condition) {n : Nat} (enough : Value.depthItems c.params ≤ n)
    (r : List Char) :
    Enclosed (Literal n) ')' (Condition.writeParams c.params ++ ')' :: r) c.params r := by
  have each := Value.depthItems_le.1 enough
  rw [writeParams_eq]
  exact enclosed_listed ')' (fun _ => .blank rfl .done) fun v hv r =>
    literal_write n v (c.canonical v hv) (each v hv) r

/-- A call at the start of a printed condition is that condition, and the text ends with it. -/
theorem Call.eq_of_write {c k : Condition} {r : List Char} (isName : Name c.rule.toList)
    (h : Call c.write k r) : k = c ∧ r = [] := by
  rw [write_eq] at h
  generalize text : c.rule.toList ++ _ = s at h
  cases h with
  | @mk name after t k r spelt rule opened enclosed =>
    -- A name goes as far as its characters do, so both names are the same.
    have printed := name_complete isName (r := '(' :: (Condition.writeParams c.params ++ [')']))
      (Blanks.noNameChar .done)
    have called := name_complete spelt opened.noNameChar
    rw [← text, printed] at called
    cases called
    cases opened.eq_of_noBlank (noBlank_cons rfl (by decide))
    -- Both lists of parameters are read with a budget that is enough for both.
    have params := enclosed_writeParams c (Nat.le_max_right Expression.maxNesting _) []
    have within := enclosed.imp (Literal.mono (Nat.le_max_left _ (Value.depthItems c.params)))
    obtain ⟨same, rest⟩ := within.unique (readable_literal _) (.inr (.inr rfl)) params
    exact ⟨Condition.eq_of (String.toList_injective rule).symm same, rest⟩

/-- A part at the start of a printed condition is that condition. -/
theorem Primary.eq_of_write {c : Condition} {inner : Form (Criteria Condition)}
    {d : Criteria Condition} {r : List Char} (isName : Name c.rule.toList)
    (h : Primary inner c.write d r) : d = .leaf c ∧ r = [] := by
  have start : NoBlank c.write := by
    rw [write_eq]
    exact isName.noBlank
  cases h with
  | @group _ t _ _ _ opened _ _ =>
    have parenthesis : '(' :: t = c.write := opened.eq_of_noBlank start
    obtain ⟨x, more, first, isChar⟩ := isName.head
    rw [write_eq, first] at parenthesis
    exact absurd (List.cons.inj parenthesis).1.symm (nameChar_apart isChar rfl)
  | empty blanks empty =>
    cases blanks.eq_of_noBlank start
    have none := emptyGroup?_named (k := c) isName rfl
      (.done (s := '(' :: (Condition.writeParams c.params ++ [')'])))
    rw [← write_eq, emptyGroup?_complete empty] at none
    cases none
  | call blanks call =>
    cases blanks.eq_of_noBlank start
    obtain ⟨rfl, rest⟩ := call.eq_of_write isName
    exact ⟨rfl, rest⟩

theorem not_operator_nil {lower upper : String} (keyword : Keyword lower upper) {r : List Char} :
    ¬ Operator lower upper [] r := fun h => absurd (h.length_lt keyword) (Nat.not_lt_zero _)

/-- A chain whose first part takes the whole text is that part. -/
theorem Chain.eq_of_first {lower upper : String} (keyword : Keyword lower upper)
    {part : Form (Criteria Condition)} {group : List (Criteria Condition) → Criteria Condition}
    {s r : List Char} {c d : Criteria Condition}
    (first : ∀ d r, part s d r → d = c ∧ r = [])
    (h : Chain (Operator lower upper) part group s d r) : d = c ∧ r = [] := by
  cases h with
  | one isPart => exact first _ _ isPart
  | several isPart more =>
    obtain ⟨-, rfl⟩ := first _ _ isPart
    cases more with
    | part isOperator _ _ => exact absurd isOperator (not_operator_nil keyword)

theorem Spells.eq_of_write {c : Condition} {d : Criteria Condition} (isName : Name c.rule.toList)
    (h : Spells c.write d) : d = .leaf c := by
  obtain ⟨r, whole, _⟩ := h
  exact (whole.eq_of_first keyword_or fun _ _ chain =>
    chain.eq_of_first keyword_and fun _ _ part => part.eq_of_write isName).1

end Expression.Grammar

/-! ## The law of printed conditions -/

namespace Criteria

theorem toString_leaf (c : Condition) : toString (Criteria.leaf c) = toString c := by
  apply String.toList_injective
  rw [toList_toString, write]
  exact String.toList_ofList.symm

theorem spells_write {c : Condition} {d : Criteria Condition}
    (h : ofText (toString c) = .ok d) : Spells c.write d := by
  have text : (toString c).toList = c.write := String.toList_ofList
  rw [← text]
  exact spells_of_ofText h

/-- The text of a condition that can be read back gives the condition itself exactly if its
rule has a name of the grammar. With such a name it can be read back exactly if its parameters
nest within the limit. -/
theorem a_condition_reads_back_by_its_name (c : Condition) :
    (∀ d, ofText (toString c) = .ok d → (d = .leaf c ↔ Name c.rule.toList)) ∧
    (Name c.rule.toList →
      ((∃ d, ofText (toString c) = .ok d) ↔ ∀ v ∈ c.params, v.depth ≤ Expression.maxNesting)) := by
  have itself : ofText (toString c) = .ok (.leaf c) → Spellable c := by
    intro h
    exact (writable_of_spells (spells_write h)).leaves c (by simp [leaves])
  refine ⟨fun d h => ⟨fun same => (itself (same ▸ h)).1, fun isName => ?_⟩, fun isName => ?_⟩
  · exact (spells_write h).eq_of_write isName
  · constructor
    · rintro ⟨d, h⟩
      obtain rfl := (spells_write h).eq_of_write isName
      exact (itself h).2
    · intro within
      have writable : Writable (.leaf c) :=
        ⟨by simpa [leaves] using ⟨isName, within⟩, by simp [parens]⟩
      rw [← toString_leaf]
      exact ⟨_, ofText_toString writable⟩

/-- A blank in front of a reserved word is enough: the condition on ` all` is accepted, and
its text is that of the group that always holds. -/
theorem a_padded_name_reads_back_as_a_group :
    ∃ c, Condition.decoder.ofText (Text.ofString "\x7b\"rule\":\" all\"\x7d") = .ok c ∧
      ofText (toString c) = .ok (.all []) ∧ Criteria.all [] ≠ .leaf c := by
  have text : (Condition.decoder.ofText (Text.ofString "\x7b\"rule\":\" all\"\x7d")).toOption.map
      toString = some " all()" := by decide +kernel
  rcases decoded : Condition.decoder.ofText (Text.ofString "\x7b\"rule\":\" all\"\x7d") with f | c
  · rw [decoded] at text
    cases text
  · rw [decoded] at text
    have printed : toString c = " all()" := Option.some.inj text
    exact ⟨c, rfl, by rw [printed]; rfl, by simp⟩

end Criteria

end Permit
