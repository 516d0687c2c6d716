-- The shape of a document: a list of conjunctions, each a list of nodes, each again a document or
-- a leaf. A value is decoded exactly if it has this shape.
import Permit.Proofs.Documents

namespace Permit.Criteria

open Json

variable {α : Type}

/-! ## Shapes -/

section Shapes

variable (gives : List (String × Value) → Value → Prop) (leaf : Value → α → Prop)

mutual

/-- The value is a document: it gives a list of conjunctions, and any of these holds. -/
inductive IsDocument : Value → Criteria α → Prop
  | mk {v vs cs} : gives [("anyOf", .arr vs)] v → List.Forall₂ IsConjunction vs cs →
      IsDocument v (.any cs)

/-- The value is a conjunction: it gives a list of nodes, and all of these hold. -/
inductive IsConjunction : Value → Criteria α → Prop
  | mk {v vs cs} : gives [("allOf", .arr vs)] v → List.Forall₂ IsNode vs cs →
      IsConjunction v (.all cs)

/-- The value is a node: a document, or a leaf. -/
inductive IsNode : Value → Criteria α → Prop
  | nested {v c} : IsDocument v c → IsNode v c
  | leaf {v a} : leaf v a → IsNode v (.leaf a)

end

end Shapes

/-- A value that was set aside is read exactly if it has the shape of a document, where those
leaves count that are not taken for documents. -/
theorem isNode_iff {leaf? : Value → Option α} {leaf : Value → α → Prop}
    (leaves : ∀ v a, leaf v a ↔ nested? leaf? v = none ∧ leaf? v = some a) (c : Criteria α) :
    ∀ v, (nested? leaf? v = some c ↔ IsDocument Gives leaf v c) ∧
      (conjunction? leaf? v = some c ↔ IsConjunction Gives leaf v c) ∧
      (node? leaf? v = some c ↔ IsNode Gives leaf v c) := by
  -- By the tree and not by the value: the lists of both are compared child by child.
  induction c with
  | leaf a =>
    intro v
    refine ⟨⟨fun h => absurd h (nested?_ne_leaf v a), nofun⟩, ⟨fun h => ?_, nofun⟩, ?_⟩
    · obtain ⟨_, _, _, _, same⟩ := conjunction?_eq_some_iff.1 h
      cases same
    · rw [node?_eq_some_iff]
      constructor
      · rintro (h | ⟨apart, b, read, same⟩)
        · exact absurd h (nested?_ne_leaf v a)
        · cases same
          exact .leaf ((leaves v a).2 ⟨apart, read⟩)
      · rintro (h | h)
        · cases h
        · obtain ⟨apart, read⟩ := (leaves v a).1 h
          exact .inr ⟨apart, a, read, rfl⟩
  | all cs ih =>
    intro v
    refine ⟨⟨fun h => absurd h (nested?_ne_all v cs), nofun⟩, ?_, ?_⟩
    · rw [conjunction?_eq_some_iff]
      constructor
      · rintro ⟨vs, ds, given, read, same⟩
        cases same
        rw [nodes?_eq_some_iff, forall₂_congr_right fun d hd v => (ih d hd v).2.2] at read
        exact .mk given read
      · rintro ⟨given, nodes⟩
        refine ⟨_, cs, given, ?_, rfl⟩
        rwa [nodes?_eq_some_iff, forall₂_congr_right fun d hd v => (ih d hd v).2.2]
    · rw [node?_eq_some_iff]
      constructor
      · rintro (h | ⟨_, a, _, same⟩)
        · exact absurd h (nested?_ne_all v cs)
        · cases same
      · rintro (h | h)
        cases h
  | any cs ih =>
    intro v
    have document : nested? leaf? v = some (any cs) ↔ IsDocument Gives leaf v (any cs) := by
      rw [nested?_eq_some_iff]
      constructor
      · rintro ⟨vs, ds, given, read, same⟩
        cases same
        rw [conjunctions?_eq_some_iff, forall₂_congr_right fun d hd v => (ih d hd v).2.1] at read
        exact .mk given read
      · rintro ⟨given, conjunctions⟩
        refine ⟨_, cs, given, ?_, rfl⟩
        rwa [conjunctions?_eq_some_iff, forall₂_congr_right fun d hd v => (ih d hd v).2.1]
    refine ⟨document, ⟨fun h => ?_, nofun⟩, ?_⟩
    · obtain ⟨_, _, _, _, same⟩ := conjunction?_eq_some_iff.1 h
      cases same
    · rw [node?_eq_some_iff, document]
      constructor
      · rintro (h | ⟨_, a, _, same⟩)
        · exact .nested h
        · cases same
      · rintro (h | h)
        exact .inl h

/-! ## Places -/

/-- What is due where a value stands in a document. -/
inductive Place where
  | document
  | conjunction
  | node

/-- Where the first value stands at its place, the second stands in it at its own. -/
inductive Stands : Place → Value → Place → Value → Prop
  | self {p v} : Stands p v p v
  | conjunction {p v vs w q x} : p ≠ .conjunction → Gives [("anyOf", .arr vs)] v → w ∈ vs →
      Stands .conjunction w q x → Stands p v q x
  | node {v vs w q x} : Gives [("allOf", .arr vs)] v → w ∈ vs → Stands .node w q x →
      Stands .conjunction v q x

/-- The value is what is due at the place. -/
def Fits (gives : List (String × Value) → Value → Prop) (leaf : Value → α → Prop) :
    Place → Value → Criteria α → Prop
  | .document => IsDocument gives leaf
  | .conjunction => IsConjunction gives leaf
  | .node => IsNode gives leaf

theorem gives_one_unique {name : String} {x y v : Value} (h : Gives [(name, x)] v)
    (h' : Gives [(name, y)] v) : x = y := by
  rw [gives_one_iff] at h h'
  rcases h with rfl | rfl <;> simpa using h'

/-- At each place of a document stands what is due there. -/
theorem Stands.fits {gives : List (String × Value) → Value → Prop} {leaf : Value → α → Prop}
    (form : ∀ fields v, gives fields v → Gives fields v)
    (apart : ∀ v a vs, leaf v a → ¬ Gives [("anyOf", .arr vs)] v) {p q : Place} {v x : Value}
    (h : Stands p v q x) {c : Criteria α} (fits : Fits gives leaf p v c) :
    ∃ d, Fits gives leaf q x d := by
  induction h generalizing c with
  | self => exact ⟨c, fits⟩
  | @conjunction p v vs w q x other given hw _ ih =>
    have document (h : IsDocument gives leaf v c) : ∃ d, Fits gives leaf q x d := by
      cases h with
      | mk given' each =>
        cases gives_one_unique given (form _ _ given')
        obtain ⟨d, _, conjunction⟩ := exists_of_mem_left each hw
        exact ih conjunction
    cases p with
    | document => exact document fits
    | conjunction => exact absurd rfl other
    | node =>
      cases fits with
      | nested h => exact document h
      | leaf h => exact absurd given (apart v _ vs h)
  | node given hw _ ih =>
    cases fits with
    | mk given' each =>
      cases gives_one_unique given (form _ _ given')
      obtain ⟨d, _, node⟩ := exists_of_mem_left each hw
      exact ih node

/-! ## The law of shapes -/

/-- Conditions are conditions, and documents are documents, after they were set aside as well. -/
theorem ofBuffer?_iff (v : Value) (k : Condition) :
    Condition.decoder.ofBuffer? v = some k ↔ IsCondition Gives v k := by
  have decoded : Condition.decoder.decode .buffer v.toDraft = .ok k ↔ IsCondition Gives v k :=
    Condition.decode_iff
  rw [← decoded, Decoder.ofBuffer?]
  cases Condition.decoder.decode .buffer v.toDraft <;> simp [Except.toOption]

/-- A value decodes exactly if it has the shape of a document. -/
theorem ofValue_iff {v : Value} {c : Criteria Condition} :
    (Criteria.decoder Condition.decoder).ofValue v = .ok c ↔
      IsDocument Gives (IsCondition Gives) v c := by
  have leaves (w : Value) (k : Condition) : IsCondition Gives w k ↔
      nested? Condition.decoder.ofBuffer? w = none ∧ Condition.decoder.ofBuffer? w = some k := by
    rw [ofBuffer?_iff, and_iff_right_of_imp]
    rw [Option.eq_none_iff_forall_ne_some]
    intro h d nested
    obtain ⟨vs, _, given, _⟩ := nested?_eq_some_iff.1 nested
    exact h.not_list given
  rw [Decoder.ofValue, decode_document_iff]
  exact (isNode_iff leaves c v).1

/-- A value decodes exactly if it has the shape of a document, and then to the one tree that it
denotes. No value is both a document and a condition, so one that is neither, at whatever depth
it stands where a node is due, makes the decoding fail. -/
theorem a_value_decodes_by_its_shape :
    (∀ (v : Value) (c : Criteria Condition),
      (Criteria.decoder Condition.decoder).ofValue v = .ok c ↔
        IsDocument Gives (IsCondition Gives) v c) ∧
    (∀ (v : Value) (c d : Criteria Condition), IsDocument Gives (IsCondition Gives) v c →
      IsDocument Gives (IsCondition Gives) v d → c = d) ∧
    (∀ (v : Value) (c : Criteria Condition) (k : Condition),
      IsDocument Gives (IsCondition Gives) v c → ¬ IsCondition Gives v k) ∧
    (∀ (v w : Value), Stands .document v .node w →
      (∀ c, ¬ IsDocument Gives (IsCondition Gives) w c) → (∀ k, ¬ IsCondition Gives w k) →
      ∃ f, (Criteria.decoder Condition.decoder).ofValue v = .error f) := by
  refine ⟨fun v c => ofValue_iff, fun v c d h h' => ?_, fun v c k h h' => ?_,
    fun v w stands noDocument noCondition => ?_⟩
  · exact Except.ok.inj ((ofValue_iff.2 h).symm.trans (ofValue_iff.2 h'))
  · cases h with
    | mk given _ => exact h'.not_list given
  · cases decoded : (Criteria.decoder Condition.decoder).ofValue v with
    | error f => exact ⟨f, rfl⟩
    | ok c =>
      have whole : Fits Gives (IsCondition Gives) .document v c := ofValue_iff.1 decoded
      obtain ⟨d, node⟩ := stands.fits (fun _ _ h => h) (fun _ _ _ h => h.not_list) whole
      cases node with
      | nested h => exact absurd h (noDocument _)
      | leaf h => exact absurd h (noCondition _)

/-- A string stands where a node is due, so the document is refused. -/
theorem a_string_is_no_node :
    ∃ f, (Criteria.decoder Condition.decoder).ofValue (anyOf [allOf [.str "a"]]) = .error f := by
  have inside : Stands .conjunction (allOf [.str "a"]) .node (.str "a") :=
    .node (.named (.refl _)) List.mem_cons_self .self
  have stands : Stands .document (anyOf [allOf [.str "a"]]) .node (.str "a") :=
    .conjunction nofun (.named (.refl _)) List.mem_cons_self inside
  refine a_value_decodes_by_its_shape.2.2.2 _ _ stands (fun c h => ?_) fun k h => ?_
  · cases h with
    | mk given _ => cases given
  · cases h with
    | full given _ => cases given
    | bare given _ => cases given

end Permit.Criteria
