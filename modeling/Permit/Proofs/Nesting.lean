-- How deep the document of a text nests. The text of a document is read back if the document nests
-- within the limit, and each group in parentheses costs four levels of it.
import Permit.Proofs.Remote
import Permit.Proofs.Rereading

namespace Permit.Criteria

open Json Expression Expression.Grammar

/-! ## The nesting of documents -/

section Depth

variable {α : Type} {write : α → Value}

theorem depth_anyOf (vs : List Value) : (anyOf vs).depth = Value.depthItems vs + 2 := by
  simp [anyOf, Value.depth, Value.depthMembers]

theorem depth_allOf (vs : List Value) : (allOf vs).depth = Value.depthItems vs + 2 := by
  simp [allOf, Value.depth, Value.depthMembers]

/-- How deep a tree nests where a node is due, and where a conjunction is. -/
structure Nests (write : α → Value) (c : Criteria α) (n p : Nat) : Prop where
  node : (node write c).depth ≤ n
  conjunction : (conjunction write c).depth ≤ p

theorem nests_leaf {a : α} {n : Nat} (h : (write a).depth ≤ n) :
    Nests write (.leaf a) n (n + 2) where
  node := by rwa [Criteria.node]
  conjunction := by simpa [Criteria.conjunction, depth_allOf, Value.depthItems] using h

theorem nests_all {cs : List (Criteria α)} {n p : Nat} (each : ∀ c ∈ cs, Nests write c n p) :
    Nests write (.all cs) (n + 4) (n + 2) := by
  have inner : Value.depthItems (nodes write cs) ≤ n := by
    simpa [Value.depthItems_le, nodes_eq] using fun c hc => (each c hc).node
  refine ⟨?_, ?_⟩
  · simpa [Criteria.node, depth_anyOf, depth_allOf, Value.depthItems] using inner
  · simpa [Criteria.conjunction, depth_allOf] using inner

theorem nests_any {cs : List (Criteria α)} {n p : Nat} (each : ∀ c ∈ cs, Nests write c n p) :
    Nests write (.any cs) (p + 2) (p + 4) := by
  have inner : Value.depthItems (conjunctions write cs) ≤ p := by
    simpa [Value.depthItems_le, conjunctions_eq] using fun c hc => (each c hc).conjunction
  refine ⟨?_, ?_⟩
  · simpa [Criteria.node, depth_anyOf] using inner
  · simpa [Criteria.conjunction, depth_anyOf, depth_allOf, Value.depthItems] using inner

/-- A group of several is the document that stands for it as a node. -/
theorem toJson_any (cs : List (Criteria α)) : toJson write (.any cs) = node write (.any cs) := by
  simp [toJson, node]

theorem depth_toJson_le (c : Criteria α) :
    (toJson write c).depth ≤ (conjunction write c).depth + 2 := by
  cases c with
  | any cs => simp [toJson, conjunction, depth_anyOf, depth_allOf, Value.depthItems]
  | _ => simp [toJson, depth_anyOf, Value.depthItems]

theorem depthItems_mono {cs : List (Criteria α)} {f g : Criteria α → Value}
    (each : ∀ c ∈ cs, (f c).depth ≤ (g c).depth) :
    Value.depthItems (cs.map f) ≤ Value.depthItems (cs.map g) := by
  rw [Value.depthItems_le]
  intro v hv
  obtain ⟨c, hc, rfl⟩ := List.mem_map.1 hv
  exact (each c hc).trans (Value.depthItems_le.1 le_rfl _ (List.mem_map_of_mem hc))

variable {write' : α → Value}

/-- Where no leaf nests deeper in one form than in another, nor does the document. -/
theorem depth_node_mono (c : Criteria α)
    (each : ∀ a ∈ c.leaves, (write a).depth ≤ (write' a).depth) :
    (node write c).depth ≤ (node write' c).depth ∧
      (conjunction write c).depth ≤ (conjunction write' c).depth := by
  induction c with
  | leaf a =>
    have self := each a (by simp [leaves])
    simpa [node, conjunction, depth_allOf, Value.depthItems] using self
  | all cs ih =>
    have inner := depthItems_mono fun c hc => (ih c hc fun a ha => each a (mem_leaves_all hc ha)).1
    simpa [node, conjunction, depth_allOf, depth_anyOf, Value.depthItems, nodes_eq] using inner
  | any cs ih =>
    have inner := depthItems_mono fun c hc => (ih c hc fun a ha => each a (mem_leaves_any hc ha)).2
    simpa [node, conjunction, depth_allOf, depth_anyOf, Value.depthItems, conjunctions_eq]
      using inner

theorem depth_toJson_mono (c : Criteria α)
    (each : ∀ a ∈ c.leaves, (write a).depth ≤ (write' a).depth) :
    (toJson write c).depth ≤ (toJson write' c).depth := by
  rw [toJson_eq, toJson_eq, depth_anyOf, depth_anyOf, conjunctions_eq, conjunctions_eq]
  have inner := depthItems_mono fun d hd =>
    (depth_node_mono d fun a ha => each a (leaves_of_conjunctionsOf hd ha)).2
  omega

end Depth

/-! ## The nesting of texts -/

section Texts

variable {m n p : Nat} {part : Form (Criteria Condition)}

/-- What a form of the grammar gives nests so deep, if its conditions nest `m` levels at most. -/
def Shallow (m n p : Nat) (form : Form (Criteria Condition)) : Prop :=
  ∀ s c r, form s c r → (∀ k ∈ c.leaves, k.toJson.depth ≤ m) → Nests Condition.toJson c n p

theorem shallow_primary {inner : Form (Criteria Condition)} (leaf : m ≤ n) (empty : 4 ≤ n)
    (groups : Shallow m n (n + 2) inner) : Shallow m n (n + 2) (Primary inner) := by
  intro s c r h within
  cases h with
  | group _ inside _ => exact groups _ _ _ inside within
  | empty _ isEmpty =>
    cases isEmpty with
    | all _ _ =>
      have nests : Nests Condition.toJson (.all []) 4 2 := nests_all (n := 0) (p := 0) (by simp)
      exact ⟨nests.node.trans empty, nests.conjunction.trans (Nat.le_add_left 2 n)⟩
    | any _ _ =>
      have nests : Nests Condition.toJson (.any []) 2 4 := nests_any (n := 0) (p := 0) (by simp)
      obtain ⟨node, conjunction⟩ := nests
      exact ⟨by omega, by omega⟩
  | call _ _ => exact nests_leaf ((within _ (by simp [leaves])).trans leaf)

theorem shallow_conjunction (parts : Shallow m n (n + 2) part) :
    Shallow m (n + 4) (n + 2) (Chain (Operator "and" "AND") part .all) := by
  intro s c r h within
  cases h with
  | one isPart =>
    obtain ⟨node, conjunction⟩ := parts _ _ _ isPart within
    exact ⟨by omega, conjunction⟩
  | several isPart more =>
    have each := more.forall_mem parts isPart
    exact nests_all fun d hd => each d hd fun k hk => within k (mem_leaves_all hd hk)

theorem shallow_disjunction (parts : Shallow m (n + 4) (n + 2) part) :
    Shallow m (n + 4) (n + 6) (Chain (Operator "or" "OR") part .any) := by
  intro s c r h within
  cases h with
  | one isPart =>
    obtain ⟨node, conjunction⟩ := parts _ _ _ isPart within
    exact ⟨node, by omega⟩
  | several isPart more =>
    have each := more.forall_mem parts isPart
    exact nests_any fun d hd => each d hd fun k hk => within k (mem_leaves_any hd hk)

/-- Each pair of parentheses around a part costs four levels. -/
theorem shallow_inner (leaf : m ≤ n) (empty : 4 ≤ n) (k : Nat) :
    Shallow m (n + 4 * k) (n + 4 * k + 2) (Primary (Inner k)) := by
  induction k with
  | zero => exact shallow_primary leaf empty nofun
  | succ k ih =>
    -- The conjunction inside the group and the group itself each take two levels.
    have group : Shallow m (n + 4 * k + 4) (n + 4 * k + 6) (Inner (k + 1)) := by
      rw [Inner, expr_eq]
      exact shallow_disjunction (shallow_conjunction ih)
    rw [Nat.mul_succ, ← Nat.add_assoc]
    exact shallow_primary (by omega) (by omega) group

/-- The document of an expression nests four levels for the expression itself, four for each
group that is open at once, and as many as a condition or an empty group needs. -/
theorem depth_of_expr {k : Nat} {s r : List Char} {c : Criteria Condition} (leaf : m ≤ n)
    (empty : 4 ≤ n) (h : Expr k s c r) (within : ∀ k ∈ c.leaves, k.toJson.depth ≤ m) :
    c.conditionsJson.depth ≤ n + 4 * k + 4 := by
  have conjunctions := shallow_conjunction (shallow_inner leaf empty k)
  have whole := shallow_disjunction conjunctions
  rw [expr_eq] at h
  cases h with
  | one isPart =>
    have inner := (conjunctions _ _ _ isPart within).conjunction
    exact (depth_toJson_le c).trans (Nat.add_le_add_right inner 2)
  | several isPart more =>
    rw [conditionsJson, toJson_any]
    exact (whole _ _ _ (.several isPart more) within).node

end Texts

theorem depth_toJson_condition {k : Condition} {m : Nat} (h : ∀ v ∈ k.params, v.depth ≤ m) :
    k.toJson.depth ≤ m + 2 := by
  have params := Value.depthItems_le.2 h
  simp only [Condition.toJson, Value.depth, Value.depthMembers]
  omega

/-! ## Sending -/

/-- Criteria are read back from the text of their document exactly if that nests within the
limit. -/
theorem ofJsonText_text {c : Criteria Condition} (integral : c.Integral) :
    (c.conditionsJson.depth ≤ Json.maxNesting →
      ofJsonText Condition.decoder c.conditionsJson.text = .ok c.asDocument) ∧
    (Json.maxNesting < c.conditionsJson.depth →
      ∃ f, ofJsonText Condition.decoder c.conditionsJson.text = .error f) := by
  obtain ⟨shallow, deep⟩ := (follows_conditions integral).ofText
  refine ⟨fun within => ?_, deep⟩
  exact (shallow within).trans (decode_conditions c .text)

/-- The text spells the tree with at most `n` groups in parentheses open at once. -/
def SpellsWithin (n : Nat) (text : List Char) (c : Criteria Condition) : Prop :=
  ∃ r, Expr n text c r ∧ Blanks r []

/-- Each way to read a text gives the tree that is read, so fewer groups are open in that. -/
theorem SpellsWithin.eq {n : Nat} {text : String} {c d : Criteria Condition}
    (h : SpellsWithin n text.toList d) (few : n ≤ Expression.maxNesting)
    (read : ofText text = .ok c) : d = c := by
  obtain ⟨r, whole, blanks⟩ := h
  exact Spells.unique ⟨r, Expr.mono few _ _ _ whole, blanks⟩ (spells_of_ofText read)

/-! ## Groups in groups -/

section Nested

variable (k : Condition)

/-- The condition, or the rest that stands `n` groups deep. -/
def nest : Nat → Criteria Condition
  | 0 => .leaf k
  | n + 1 => .any [.leaf k, nest n]

/-- The text of it, which opens a group for each level. -/
def nestText : Nat → List Char
  | 0 => k.write
  | n + 1 => k.write ++ ("or(".toList ++ (nestText n ++ [')']))

variable {k}

theorem expr_nestText (spellable : Spellable k) (n : Nat) :
    ∀ r, Expr n (nestText k n ++ r) (nest k n) r := by
  have part {inner : Form (Criteria Condition)} (r : List Char) :
      Chain (Operator "and" "AND") (Primary inner) .all (k.write ++ r) (.leaf k) r :=
    .one (.call .done (call_write spellable r))
  induction n with
  | zero => exact fun r => .one (part r)
  | succ n ih =>
    intro r
    have isOr : Operator "or" "OR" ("or(".toList ++ (nestText k n ++ ')' :: r))
        ('(' :: (nestText k n ++ ')' :: r)) := by
      refine .lower .done fun c t first => ?_
      cases first
      rfl
    have group : Primary (Expr n) ('(' :: (nestText k n ++ ')' :: r)) (nest k n) r :=
      .group .done (ih _) .done
    have text : nestText k (n + 1) ++ r
        = k.write ++ ("or(".toList ++ (nestText k n ++ ')' :: r)) := by
      simp [nestText]
    rw [text]
    exact .several (part _) (.part isOr (.one group) .none)

/-- Up to the limit of the reader of texts, such a text gives its tree. -/
theorem ofText_nestText (spellable : Spellable k) {n : Nat} (few : n ≤ Expression.maxNesting) :
    ofText (String.ofList (nestText k n)) = .ok (nest k n) := by
  have whole := Expr.mono few _ _ _ (expr_nestText spellable n [])
  rw [List.append_nil] at whole
  unfold ofText
  rw [String.toList_ofList, expression_complete ⟨[], whole, .done⟩]

theorem integral_nest (integral : ∀ v ∈ k.params, v.Integral) (n : Nat) :
    (nest k n).Integral := by
  induction n with
  | zero => simpa [nest, Integral, leaves] using integral
  | succ n ih => simpa [nest, Integral, leaves, leavesOf] using ⟨integral, ih⟩

theorem depth_nest (n : Nat) :
    (conjunction Condition.toJson (nest k n)).depth = k.toJson.depth + 4 * n + 2 := by
  induction n with
  | zero => simp [nest, conjunction, depth_allOf, Value.depthItems]
  | succ n ih =>
    simp only [nest, conjunction, conjunctions, depth_allOf, depth_anyOf, Value.depthItems, ih]
    omega

/-- Each of the groups costs four levels. -/
theorem depth_conditionsJson_nest (n : Nat) :
    (nest k (n + 1)).conditionsJson.depth = k.toJson.depth + 4 * (n + 1) := by
  simp only [conditionsJson, nest, toJson, conjunctions, conjunction, depth_anyOf, depth_allOf,
    Value.depthItems, depth_nest]
  omega

/-- From 32 groups on, a text that is read cannot be sent. -/
theorem deep_groups_are_refused (spellable : Spellable k)
    (integral : ∀ v ∈ k.params, v.Integral) {n : Nat} (many : 32 ≤ n)
    (few : n ≤ Expression.maxNesting) :
    ofText (String.ofList (nestText k n)) = .ok (nest k n) ∧
    ∃ f, ofJsonText Condition.decoder (nest k n).conditionsJson.text = .error f := by
  refine ⟨ofText_nestText spellable few, (ofJsonText_text (integral_nest integral n)).2 ?_⟩
  obtain ⟨n, rfl⟩ := Nat.exists_eq_add_of_lt (Nat.lt_of_lt_of_le (by decide : 0 < 32) many)
  have shallowest : 2 ≤ k.toJson.depth := by
    simp [Condition.toJson, Value.depth, Value.depthMembers]
  rw [Nat.zero_add, depth_conditionsJson_nest, Json.maxNesting]
  omega

end Nested

/-! ## The law of nesting -/

/-- A tree that a text spells, without floats, can be sent exactly if its document nests within the
limit. It arrives with its leaves in their order then, and no decision sees that it was sent. If no
more than `n` groups of the text are open at once and no parameter nests deeper than `m`, the
document nests `4 * n` levels and a few more, so up to 29 groups around parameters of up to five
levels can always be sent. -/
theorem a_text_can_be_sent_within_the_limit {text : String} {c : Criteria Condition}
    (read : ofText text = .ok c) (integral : c.Integral) :
    (c.conditionsJson.depth ≤ Json.maxNesting →
      ∃ d, ofJsonText Condition.decoder c.conditionsJson.text = .ok d ∧ d.leaves = c.leaves ∧
        ∀ {ε : Type} (decide : Condition → Except ε Bool),
          d.tryEvaluate decide = c.tryEvaluate decide ∧ d.walk decide = c.walk decide) ∧
    (Json.maxNesting < c.conditionsJson.depth →
      ∃ f, ofJsonText Condition.decoder c.conditionsJson.text = .error f) ∧
    (∀ n m d, SpellsWithin n text.toList d → (∀ k ∈ c.leaves, ∀ v ∈ k.params, v.depth ≤ m) →
      c.conditionsJson.depth ≤ max (m + 2) 4 + 4 * n + 4) := by
  obtain ⟨shallow, deep⟩ := ofJsonText_text integral
  refine ⟨fun within => ?_, deep, fun n m d spells params => ?_⟩
  · refine ⟨_, shallow within, regroup.leaves_run c, fun decide => ?_⟩
    exact ⟨regroup.tryEvaluate_run decide c, regroup.walk_run decide c⟩
  · have each : ∀ k ∈ c.leaves, k.toJson.depth ≤ m + 2 := fun k hk =>
      depth_toJson_condition (params k hk)
    by_cases few : n ≤ Expression.maxNesting
    · obtain rfl := spells.eq few read
      obtain ⟨r, whole, _⟩ := spells
      exact depth_of_expr (Nat.le_max_left _ _) (Nat.le_max_right _ _) whole each
    · -- No more groups are open in a text that was read than the reader allows.
      obtain ⟨r, whole, _⟩ := spells_of_ofText read
      have bound := depth_of_expr (Nat.le_max_left (m + 2) 4) (Nat.le_max_right _ _) whole each
      omega

/-- Two groups around conditions whose parameter is a list. -/
theorem two_groups_can_be_sent : ∃ k : Condition, k.rule = "a" ∧ k.params = [.arr [.bool true]] ∧
    ofText (String.ofList (nestText k 2)) = .ok (nest k 2) ∧
    ∃ d, ofJsonText Condition.decoder (nest k 2).conditionsJson.text = .ok d ∧
      d.leaves = [k, k, k] := by
  obtain ⟨k, rule, params⟩ : ∃ k : Condition, k.rule = "a" ∧ k.params = [.arr [.bool true]] :=
    ⟨⟨"a", [.arr [.bool true]], rfl, by simp [Value.Canonical, Value.CanonicalItems]⟩, rfl, rfl⟩
  have isName : Name ['a'] := .mk rfl (by simp)
  have spellable : Spellable k := by
    refine ⟨?_, by simp [params, Value.depth, Value.depthItems, Expression.maxNesting]⟩
    rw [rule]
    exact isName
  have read := ofText_nestText spellable (n := 2) (by decide)
  have integral : (nest k 2).Integral := by
    refine integral_nest ?_ 2
    simp [params, Value.Integral, Value.IntegralItems]
  have shallow : (nest k 2).conditionsJson.depth ≤ Json.maxNesting := by
    simp [depth_conditionsJson_nest, Condition.toJson, params, Value.depth, Value.depthItems,
      Value.depthMembers, Json.maxNesting]
  obtain ⟨d, arrived, same, -⟩ := (a_text_can_be_sent_within_the_limit read integral).1 shallow
  exact ⟨k, rule, params, read, d, arrived, same⟩

/-- The text `a()or(a()or(…))` with 32 groups is read, and its document is refused. -/
theorem thirty_two_groups_are_refused : ∃ k : Condition, k.rule = "a" ∧ k.params = [] ∧
    ofText (String.ofList (nestText k 32)) = .ok (nest k 32) ∧ (nest k 32).Integral ∧
    ∃ f, ofJsonText Condition.decoder (nest k 32).conditionsJson.text = .error f := by
  obtain ⟨k, rule, params⟩ : ∃ k : Condition, k.rule = "a" ∧ k.params = [] :=
    ⟨⟨"a", [], rfl, by simp⟩, rfl, rfl⟩
  have isName : Name ['a'] := .mk rfl (by simp)
  have spellable : Spellable k := by
    refine ⟨?_, by simp [params]⟩
    rw [rule]
    exact isName
  have whole : ∀ v ∈ k.params, v.Integral := by simp [params]
  obtain ⟨read, refused⟩ := deep_groups_are_refused spellable whole (n := 32) (by decide)
    (by decide)
  exact ⟨k, rule, params, read, integral_nest whole 32, refused⟩

end Permit.Criteria
