-- Documents that are passed on. A tree that was decoded has the groups of a document, so it is
-- written as the document that it came from, and a document stops changing after one service.
import Mathlib.Data.List.Permutation
import Permit.Proofs.Objects

namespace Permit.Criteria

open Json

variable {α : Type}

/-! ## Parameters that were left out -/

mutual

/-- The document with an empty list for each list of parameters that was left out. -/
def completed : Value → Value
  | .obj [(name, .arr items)] => .obj [(name, .arr (allCompleted items))]
  | .obj [(name, .str rule)] => .obj [(name, .str rule), ("params", .arr [])]
  | v => v

def allCompleted : List Value → List Value
  | [] => []
  | v :: rest => completed v :: allCompleted rest

end

theorem allCompleted_eq (vs : List Value) : allCompleted vs = vs.map completed := by
  induction vs with
  | nil => rfl
  | cons v rest ih => rw [allCompleted, ih, List.map_cons]

/-- The value is an object of a rule and its parameters. -/
def Spelled (v : Value) (k : Condition) : Prop :=
  ∃ params, Names [("rule", .str k.rule), ("params", .arr params)] v ∧
    k.params = Value.normalizeItems params

theorem Spelled.names {v : Value} {k : Condition} (h : Spelled v k) : IsCondition Names v k := by
  obtain ⟨params, named, same⟩ := h
  exact .full named same

/-- Two members stay as they are. -/
theorem completed_of_two {m n : String × Value} {ms : List (String × Value)}
    (h : ms.Perm [m, n]) : completed (.obj ms) = .obj ms := by
  have two : ms.length = 2 := h.length_eq
  unfold completed
  split
  · next same =>
    cases same
    cases two
  · next same =>
    cases same
    cases two
  · rfl

theorem spelled_completed {v : Value} {k : Condition} (h : IsCondition Names v k) :
    Spelled (completed v) k := by
  cases h with
  | @full params named same =>
    obtain ⟨ms, rfl, perm⟩ := named
    rw [completed_of_two perm]
    exact ⟨params, ⟨ms, rfl, perm⟩, same⟩
  | bare named none =>
    obtain ⟨ms, rfl, perm⟩ := named
    obtain rfl := List.perm_singleton.1 perm
    exact ⟨[], ⟨_, rfl, .refl _⟩, none⟩

/-- With its parameters filled in, a document whose fields are named is spelled in full. -/
theorem isDocument_completed {v : Value} {c : Criteria Condition}
    (h : IsDocument Names (IsCondition Names) v c) : IsDocument Names Spelled (completed v) c := by
  have list {name : String} (w : Value) (vs : List Value) (named : Names [(name, .arr vs)] w) :
      Names [(name, .arr (vs.map completed))] (completed w) := by
    obtain ⟨ms, rfl, perm⟩ := named
    obtain rfl := List.perm_singleton.1 perm
    rw [completed, allCompleted_eq]
    exact names_one _ _
  exact (IsNode.map list list (fun _ _ => spelled_completed) c v).1 h

/-! ## Leaves where they stand -/

/-- What each leaf of a document is where it stands, the leaves of the document are. -/
theorem Fits.imp_leaves {gives : List (String × Value) → Value → Prop}
    {leaf leaf' : Value → α → Prop} (form : ∀ fields v, gives fields v → Gives fields v)
    (c : Criteria α) : ∀ p v, Fits gives leaf p v c →
      (∀ w a, Stands p v .node w → leaf w a → leaf' w a) → Fits gives leaf' p v c := by
  induction c with
  | leaf a =>
    intro p v fits same
    cases p with
    | document => cases fits
    | conjunction => cases fits
    | node =>
      cases fits with
      | nested h => cases h
      | leaf h => exact .leaf (same v a .self h)
  | all cs ih =>
    intro p v fits same
    cases p with
    | document => cases fits
    | conjunction =>
      obtain ⟨given, nodes⟩ := fits
      have each := (List.forall₂_and_left _ _).2 ⟨fun _ hw => hw, nodes⟩
      refine .mk given (forall₂_imp_right (fun d hd w ⟨hw, node⟩ => ?_) each)
      exact ih d hd .node w node fun x a inside => same x a (.node (form _ _ given) hw inside)
    | node =>
      cases fits with
      | nested h => cases h
  | any cs ih =>
    have document (p : Place) (other : p ≠ .conjunction) {v : Value}
        (h : IsDocument gives leaf v (any cs))
        (same : ∀ w a, Stands p v .node w → leaf w a → leaf' w a) :
        IsDocument gives leaf' v (any cs) := by
      obtain ⟨given, conjunctions⟩ := h
      have each := (List.forall₂_and_left _ _).2 ⟨fun _ hw => hw, conjunctions⟩
      refine .mk given (forall₂_imp_right (fun d hd w ⟨hw, conjunction⟩ => ?_) each)
      exact ih d hd .conjunction w conjunction fun x a inside =>
        same x a (.conjunction other (form _ _ given) hw inside)
    intro p v fits same
    cases p with
    | document => exact document .document nofun fits same
    | conjunction => cases fits
    | node =>
      cases fits with
      | nested h => exact .nested (document .node nofun h same)

/-- A rule is given without its parameters nowhere in the document. -/
def Complete (v : Value) : Prop :=
  ∀ w, Stands .document v .node w → ∀ rule, ¬ Gives [("rule", .str rule)] w

theorem Spelled.not_alone {v : Value} {k : Condition} (h : Spelled v k) (rule : String) :
    ¬ Gives [("rule", .str rule)] v := by
  obtain ⟨params, ⟨ms, rfl, perm⟩, _⟩ := h
  intro alone
  cases alone with
  | named other => simpa using (perm.symm.trans other).length_eq

/-- A document is spelled in full exactly if it is of objects and complete. -/
theorem spelled_iff {v : Value} {c : Criteria Condition}
    (h : IsDocument Gives (IsCondition Gives) v c) :
    IsDocument Names Spelled v c ↔ OfObjects .document v ∧ Complete v := by
  constructor
  · intro spelled
    have whole : Fits Names Spelled .document v c := spelled
    have named : Fits Names (IsCondition Names) .document v c :=
      Fits.imp_leaves (fun _ _ => gives_of_names) c _ _ whole fun _ _ _ h => h.names
    have apart (x : Value) (k : Condition) (vs : List Value) (h : IsCondition Names x k) :
        ¬ Gives [("anyOf", .arr vs)] x := (isCondition_of_names h).not_list
    refine ⟨fun p w stands => ?_, fun w stands rule alone => ?_⟩
    · obtain ⟨d, fits⟩ := stands.fits (fun _ _ => gives_of_names) apart named
      exact object_of_fits fits
    · obtain ⟨d, node⟩ := stands.fits (fun _ _ => gives_of_names)
        (fun x k vs h => apart x k vs h.names) whole
      cases node with
      | nested h =>
        obtain ⟨⟨ms, rfl, perm⟩, _⟩ := h
        obtain rfl := List.perm_singleton.1 perm
        rcases gives_one_iff.1 alone with same | same <;> simp at same
      | leaf h => exact h.not_alone rule alone
  · rintro ⟨objects, complete⟩
    have named := isDocument_byName h
    rw [(byName_eq_self c v).1 h objects] at named
    have whole : Fits Names (IsCondition Names) .document v c := named
    refine Fits.imp_leaves (fun _ _ => gives_of_names) c _ _ whole fun w k stands h => ?_
    cases h with
    | full named same => exact ⟨_, named, same⟩
    | bare named _ => exact absurd (gives_of_names named) (complete w stands _)

/-! ## What is written for a document -/

theorem normalize_spelled {v : Value} {k : Condition} (h : Spelled v k) :
    v.normalize = (LeafForm.condition.write k).normalize := by
  obtain ⟨params, ⟨ms, rfl, perm⟩, same⟩ := h
  have first : ("params" : String) < "rule" ∧ ¬ ("rule" : String) < "params" := by decide
  rw [LeafForm.write_condition, same]
  rcases List.perm_pair.1 perm with rfl | rfl <;>
    simp [Value.normalize, Value.normalizeMembers, Value.sortMembers, Value.insertMember, first]

/-- A document that is spelled in full is what its tree is written as. -/
theorem normalize_of_spelled (c : Criteria Condition) : ∀ v,
    (IsDocument Names Spelled v c → v.normalize = LeafForm.condition.value c) ∧
    (IsConjunction Names Spelled v c →
      v.normalize = conjunction (fun k => (LeafForm.condition.write k).normalize) c) ∧
    (IsNode Names Spelled v c →
      v.normalize = node (fun k => (LeafForm.condition.write k).normalize) c) := by
  have items {R : Value → Criteria Condition → Prop} {f : Criteria Condition → Value}
      {vs : List Value} {cs : List (Criteria Condition)}
      (each : ∀ c ∈ cs, ∀ v, R v c → v.normalize = f c) (all : List.Forall₂ R vs cs) :
      Value.normalizeItems vs = cs.map f := by
    rw [normalizeItems_eq, ← List.forall₂_eq_eq_eq, List.forall₂_map_left_iff,
      List.forall₂_map_right_iff]
    exact forall₂_imp_right each all
  have only {name : String} {vs : List Value} {v : Value} (h : Names [(name, .arr vs)] v) :
      v = .obj [(name, .arr vs)] := object_of_gives (gives_of_names h) (h.imp fun _ => And.left)
  induction c with
  | leaf k =>
    refine fun v => ⟨by rintro ⟨⟩, by rintro ⟨⟩, fun h => ?_⟩
    cases h with
    | nested h => cases h
    | leaf h => rw [node, normalize_spelled h]
  | all cs ih =>
    refine fun v => ⟨by rintro ⟨⟩, fun h => ?_, fun h => by rcases h with ⟨⟨⟩⟩⟩
    obtain ⟨named, nodes⟩ := h
    obtain rfl := only named
    rw [← allOf, normalize_allOf, conjunction_eq, nodesOf, nodes_eq,
      items (fun d hd w => (ih d hd w).2.2) nodes]
  | any cs ih =>
    have document (v : Value) (h : IsDocument Names Spelled v (any cs)) : v.normalize
        = node (fun k => (LeafForm.condition.write k).normalize) (any cs) := by
      obtain ⟨named, conjunctions⟩ := h
      obtain rfl := only named
      rw [← anyOf, normalize_anyOf, node, conjunctions_eq,
        items (fun d hd w => (ih d hd w).2.1) conjunctions]
    refine fun v => ⟨fun h => ?_, by rintro ⟨⟩, fun h => ?_⟩
    · rw [document v h, LeafForm.value, normalize_toJson, toJson, node]
    · cases h with
      | nested h => exact document v h

theorem spelled_normalize {v : Value} {c : Criteria Condition} (h : IsDocument Names Spelled v c) :
    IsDocument Names Spelled v.normalize c := by
  have list {name : String} (w : Value) (vs : List Value) (named : Names [(name, .arr vs)] w) :
      Names [(name, .arr (vs.map Value.normalize))] w.normalize := by
    obtain ⟨ms, rfl, perm⟩ := named
    obtain rfl := List.perm_singleton.1 perm
    simpa [Value.normalize, Value.normalizeMembers, Value.sortMembers, Value.insertMember,
      normalizeItems_eq] using names_one name (.arr (vs.map Value.normalize))
  have leaves (w : Value) (k : Condition) (h : Spelled w k) : Spelled w.normalize k := by
    have same := Value.normalizeItems_of_canonical k.params (Value.canonicalItems_iff.2 k.canonical)
    rw [normalize_spelled h, LeafForm.write_condition]
    exact ⟨k.params, ⟨_, rfl, .swap _ _ _⟩, same.symm⟩
  exact (IsNode.map list list leaves c v).1 h

/-- A tree that was decoded has the groups of a document already. -/
theorem asDocument_of_ofValue {d : Decoder α} {v : Value} {t : Criteria α}
    (h : (decoder d).ofValue v = .ok t) : asDocument t = t := by
  have read : nested? d.ofBuffer? v = some t := decode_document_iff.1 h
  rcases asDocument_eq t with same | ⟨a, rfl, _⟩
  · rw [same]
    exact ((node?_settled t v).1 (node?_eq_some_iff.2 (.inl read))).1
  · exact absurd read (nested?_ne_leaf v a)

/-! ## Two documents with the same groups -/

/-- Each part of the first document has its part in the second, in the same order, and conditions
are the same. -/
inductive Mirrors : Place → Value → Value → Prop
  | document {p v w vs ws} : p ≠ .conjunction → Gives [("anyOf", .arr vs)] v →
      Gives [("anyOf", .arr ws)] w → List.Forall₂ (Mirrors .conjunction) vs ws → Mirrors p v w
  | conjunction {v w vs ws} : Gives [("allOf", .arr vs)] v → Gives [("allOf", .arr ws)] w →
      List.Forall₂ (Mirrors .node) vs ws → Mirrors .conjunction v w
  | condition {v w k} : IsCondition Gives v k → IsCondition Gives w k → Mirrors .node v w

theorem forall₂_both {β γ δ : Type} {R : β → γ → Prop} {S : δ → γ → Prop} {T : β → δ → Prop}
    {bs : List β} {ds : List δ} {cs : List γ} (h : ∀ c ∈ cs, ∀ b d, R b c → S d c → T b d)
    (left : List.Forall₂ R bs cs) (right : List.Forall₂ S ds cs) : List.Forall₂ T bs ds := by
  induction left generalizing ds with
  | nil =>
    cases right
    exact .nil
  | cons first _ ih =>
    cases right with
    | cons second later =>
      exact .cons (h _ (by simp) _ _ first second) (ih (fun c hc => h c (by simp [hc])) later)

/-- Documents of one tree mirror each other. -/
theorem mirrors_of_fits (c : Criteria Condition) : ∀ p v w,
    Fits Gives (IsCondition Gives) p v c → Fits Gives (IsCondition Gives) p w c →
      Mirrors p v w := by
  induction c with
  | leaf k =>
    intro p v w left right
    cases p with
    | document => cases left
    | conjunction => cases left
    | node =>
      cases left with
      | nested h => cases h
      | leaf first =>
        cases right with
        | nested h => cases h
        | leaf second => exact .condition first second
  | all cs ih =>
    intro p v w left right
    cases p with
    | document => cases left
    | conjunction =>
      obtain ⟨given, nodes⟩ := left
      obtain ⟨given', nodes'⟩ := right
      exact .conjunction given given' (forall₂_both (fun d hd => ih d hd .node) nodes nodes')
    | node =>
      cases left with
      | nested h => cases h
  | any cs ih =>
    have document (p : Place) (other : p ≠ .conjunction) {v w : Value}
        (left : IsDocument Gives (IsCondition Gives) v (any cs))
        (right : IsDocument Gives (IsCondition Gives) w (any cs)) : Mirrors p v w := by
      obtain ⟨given, parts⟩ := left
      obtain ⟨given', parts'⟩ := right
      exact .document other given given'
        (forall₂_both (fun d hd => ih d hd .conjunction) parts parts')
    intro p v w left right
    cases p with
    | document => exact document .document nofun left right
    | conjunction => cases left
    | node =>
      cases left with
      | nested first =>
        cases right with
        | nested second => exact document .node nofun first second

/-! ## The law of forwarding -/

/-- What a service passes on that reads a document and writes its tree again. -/
def relay (v : Value) : Except Failure Value :=
  ((decoder Condition.decoder).ofValue v).map LeafForm.condition.value

/-- What arrives through so many services. -/
def relayed : Nat → Value → Except Failure Value
  | 0, v => .ok v
  | n + 1, v => relay v >>= relayed n

theorem relayed_of_settled {v : Value} (settled : relay v = .ok v) (n : Nat) :
    relayed n v = .ok v := by
  induction n with
  | zero => rfl
  | succ n ih =>
    rw [relayed, settled]
    exact ih

/-- Writing a tree that was decoded from a document gives a document of the same tree, which each
further service passes on as it is. It is the first document with its fields by name and with the
parameters that were left out, so it is the first document itself exactly if that is of objects,
complete, and in canonical form. Group by group, also where these are empty, both are the same. -/
theorem a_decoded_tree_is_written_as_its_document {v : Value} {t : Criteria Condition}
    (h : (decoder Condition.decoder).ofValue v = .ok t) :
    (decoder Condition.decoder).ofValue (LeafForm.condition.value t) = .ok t ∧
    (∀ n, relayed (n + 1) v = .ok (LeafForm.condition.value t)) ∧
    LeafForm.condition.value t = (completed (byName v)).normalize ∧
    (LeafForm.condition.value t = v ↔ v.Canonical ∧ OfObjects .document v ∧ Complete v) ∧
    Mirrors .document v (LeafForm.condition.value t) := by
  have shape := ofValue_iff.1 h
  have settled : (decoder Condition.decoder).ofValue (LeafForm.condition.value t) = .ok t := by
    have same : regroup.run t = t := asDocument_of_ofValue h
    have arrives := LeafForm.faithful_condition.trip_eq t
    rwa [same] at arrives
  have filled := isDocument_completed (isDocument_byName shape)
  have written := ((normalize_of_spelled t _).1 filled).symm
  refine ⟨settled, fun n => ?_, written, ⟨fun same => ?_, fun h => ?_⟩, ?_⟩
  · have first : relay v = .ok (LeafForm.condition.value t) := by rw [relay, h, Except.map]
    have again : relay (LeafForm.condition.value t) = .ok (LeafForm.condition.value t) := by
      rw [relay, settled, Except.map]
    rw [relayed, first]
    exact relayed_of_settled again n
  · have spelled : IsDocument Names Spelled v t := by
      rw [← same, written]
      exact spelled_normalize filled
    refine ⟨?_, (spelled_iff shape).1 spelled⟩
    rw [← same, written]
    exact Value.canonical_normalize _
  · obtain ⟨canonical, full⟩ := h
    rw [← (normalize_of_spelled t v).1 ((spelled_iff shape).2 full)]
    exact Value.normalize_of_canonical v canonical
  · exact mirrors_of_fits t .document _ _ shape (ofValue_iff.1 settled)

/-- A rule alone in an array, an empty document inside, and an array for an empty conjunction. -/
theorem a_short_document_is_filled_in : ∃ t,
    (decoder Condition.decoder).ofValue (anyOf [allOf [.arr [.str "R"], anyOf []], .arr [.arr []]])
      = .ok t ∧
    relayed 3 (anyOf [allOf [.arr [.str "R"], anyOf []], .arr [.arr []]])
      = .ok (LeafForm.condition.value t) ∧
    LeafForm.condition.value t = anyOf [allOf [.obj [("params", .arr []), ("rule", .str "R")],
      anyOf []], allOf []] := by
  have decoded : (decoder Condition.decoder).ofValue
      (anyOf [allOf [.arr [.str "R"], anyOf []], .arr [.arr []]])
        = .ok (.any [.all [.leaf ⟨"R", [], rfl, by simp⟩, .any []], .all []]) := rfl
  obtain ⟨_, passed, written, _⟩ := a_decoded_tree_is_written_as_its_document decoded
  exact ⟨_, rfl, passed 2, written.trans rfl⟩

end Permit.Criteria
