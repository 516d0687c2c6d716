-- Leaves that are JSON values. Each tree of such leaves can be sent. A leaf arrives as it was, but
-- for one that is a document itself: that is criteria, wherever it stands.
import Permit.Proofs.Objects

namespace Permit.Criteria

open Json

/-- Leaves that are JSON values. -/
def LeafForm.whole : LeafForm Value := ⟨id, .whole⟩

/-- The value has the shape of a document: it lists conjunctions, and these list anything. The
field of either may be given by name or by its position alone, so `[[]]` has the shape too. -/
def Shaped (v : Value) : Prop :=
  ∃ vs, Gives [("anyOf", .arr vs)] v ∧ ∀ w ∈ vs, ∃ us, Gives [("allOf", .arr us)] w

/-- The value does not have the shape of a document, so it is a leaf, in canonical form. -/
def Plain (v w : Value) : Prop := ¬ Shaped v ∧ v.normalize = w

/-! ## Reading values -/

theorem ofBuffer?_whole (v : Value) : Decoder.whole.ofBuffer? v = some v.normalize := by
  simp [Decoder.ofBuffer?, Decoder.whole, Value.settle_toDraft, Except.map, Except.toOption]

/-- What stands where a node is due is read, whatever it is. -/
theorem exists_node? (v : Value) : ∃ c, node? Decoder.whole.ofBuffer? v = some c := by
  unfold node?
  rw [ofBuffer?_whole]
  cases nested? Decoder.whole.ofBuffer? v <;> simp

theorem exists_conjunction?_iff {v : Value} :
    (∃ c, conjunction? Decoder.whole.ofBuffer? v = some c) ↔
      ∃ us, Gives [("allOf", .arr us)] v := by
  constructor
  · rintro ⟨c, read⟩
    obtain ⟨us, _, given, _⟩ := conjunction?_eq_some_iff.1 read
    exact ⟨us, given⟩
  · rintro ⟨us, given⟩
    obtain ⟨cs, nodes⟩ := exists_forall₂_iff.2 fun u (_ : u ∈ us) => exists_node? u
    exact ⟨.all cs, conjunction?_eq_some_iff.2 ⟨us, cs, given, nodes?_eq_some_iff.2 nodes, rfl⟩⟩

/-- A value is taken for a document exactly if it has the shape of one. -/
theorem exists_nested?_iff {v : Value} :
    (∃ c, nested? Decoder.whole.ofBuffer? v = some c) ↔ Shaped v := by
  constructor
  · rintro ⟨c, read⟩
    obtain ⟨vs, cs, given, conjunctions, _⟩ := nested?_eq_some_iff.1 read
    refine ⟨vs, given, fun w hw => exists_conjunction?_iff.1 ?_⟩
    exact exists_forall₂_iff.1 ⟨cs, conjunctions?_eq_some_iff.1 conjunctions⟩ w hw
  · rintro ⟨vs, given, each⟩
    obtain ⟨cs, conjunctions⟩ :=
      exists_forall₂_iff.2 fun w hw => exists_conjunction?_iff.2 (each w hw)
    exact ⟨.any cs,
      nested?_eq_some_iff.2 ⟨vs, cs, given, conjunctions?_eq_some_iff.2 conjunctions, rfl⟩⟩

theorem plain_iff (v w : Value) :
    Plain v w ↔ nested? Decoder.whole.ofBuffer? v = none ∧ Decoder.whole.ofBuffer? v = some w := by
  rw [Plain, ← exists_nested?_iff, ofBuffer?_whole, Option.some.injEq, not_exists,
    ← Option.eq_none_iff_forall_ne_some]

/-- A document over plain leaves, with its fields by name, is read as the tree that it denotes. -/
theorem node?_of_names {v : Value} {c : Criteria Value} (h : IsNode Names Plain v c) :
    node? Decoder.whole.ofBuffer? v = some c := by
  rw [(isNode_iff plain_iff c v).2.2]
  exact (IsNode.of_names (fun _ _ => id) c v).2 h

/-! ## Sending values -/

section Sending

variable {c : Criteria Value} {tree : Value → Criteria Value}

/-- Each leaf arrives as the tree that it is read as. -/
theorem arrives
    (reads : ∀ v ∈ c.leaves, node? Decoder.whole.ofBuffer? v.normalize = some (tree v)) :
    ∃ c', LeafForm.whole.trip c = .ok c' ∧ c'.leaves = c.leaves.flatMap (fun v => (tree v).leaves) ∧
      ∀ {ε : Type} (decide : Value → Except ε Bool),
        c'.tryEvaluate decide = c.tryEvaluate fun v => (tree v).tryEvaluate decide := by
  -- Grafting the trees and regrouping the result both keep leaves and decisions.
  refine ⟨_, LeafForm.trip_eq reads, ?_, fun decide => ?_⟩
  · have each (d : Criteria Value) (_ : d ∈ c.conjunctionsOf) :
        (asConjunction (graft tree d)).leaves = d.leaves.flatMap fun v => (tree v).leaves := by
      rw [(leaves_asNode _).2, leaves_graft]
    rw [leaves_any, List.flatMap_map, List.flatMap_congr each, ← List.flatMap_assoc,
      ← leaves_any, leaves_conjunctionsOf]
  · have each (d : Criteria Value) (_ : d ∈ c.conjunctionsOf) :
        evaluateM decide (asConjunction (graft tree d))
          = evaluateM (fun v => (tree v).tryEvaluate decide) d := by
      rw [(evaluateM_asNode decide _).2, evaluateM_graft]
      rfl
    unfold tryEvaluate
    rw [evaluateM, someM_map_congr _ each]
    exact evaluateM_conjunctionsOf _ c

end Sending

/-! ## The law of value leaves -/

/-- Each tree of values can be sent. If no leaf has the shape of a document, with its fields by name
or by position as in `[[]]`, the tree arrives with the groups of a document: with its leaves in
their order, and with the same outcome of each decision, which asks about the same leaves. If leaves
are documents with their fields by name, they arrive as criteria: each is decided as the tree that
it denotes. -/
theorem a_value_arrives_as_what_it_is :
    (∀ c : Criteria Value, ∃ c', LeafForm.whole.trip c = .ok c') ∧
    (∀ c : Criteria Value, (∀ v ∈ c.leaves, v.Canonical ∧ ¬ Shaped v) →
      ∃ c', LeafForm.whole.trip c = .ok c' ∧ c' = regroup.run c ∧ c'.leaves = c.leaves ∧
        ∀ {ε : Type} (decide : Value → Except ε Bool),
          c'.tryEvaluate decide = c.tryEvaluate decide ∧ c'.walk decide = c.walk decide) ∧
    (∀ (c : Criteria Value) (tree : Value → Criteria Value),
      (∀ v ∈ c.leaves, v.Canonical ∧ IsNode Names Plain v (tree v)) →
      ∃ c', LeafForm.whole.trip c = .ok c' ∧
        c'.leaves = c.leaves.flatMap (fun v => (tree v).leaves) ∧
        ∀ {ε : Type} (decide : Value → Except ε Bool),
          c'.tryEvaluate decide = c.tryEvaluate fun v => (tree v).tryEvaluate decide) := by
  refine ⟨fun c => ?_, fun c plain => ?_, fun c tree named => ?_⟩
  · choose tree reads using fun v : Value => exists_node? v.normalize
    obtain ⟨c', arrived, _⟩ := arrives (c := c) fun v _ => reads v
    exact ⟨c', arrived⟩
  · have arrived : LeafForm.whole.trip c = .ok (regroup.run c) := by
      refine LeafForm.trip_of_reads fun v hv => ?_
      obtain ⟨canonical, unshaped⟩ := plain v hv
      have same : (LeafForm.whole.write v).normalize = v := Value.normalize_of_canonical v canonical
      rw [same]
      obtain ⟨apart, read⟩ := (plain_iff v v).1 ⟨unshaped, Value.normalize_of_canonical v canonical⟩
      exact node?_of_leaf read apart
    refine ⟨_, arrived, rfl, regroup.leaves_run c, fun decide => ?_⟩
    exact ⟨regroup.tryEvaluate_run decide c, regroup.walk_run decide c⟩
  · refine arrives fun v hv => ?_
    obtain ⟨canonical, node⟩ := named v hv
    rw [Value.normalize_of_canonical v canonical]
    exact node?_of_names node

/-- A string and an object with another member arrive as they are; a document without conjunctions
arrives as one, which never holds. -/
theorem an_empty_document_never_holds :
    (∃ c', LeafForm.whole.trip (.any [.leaf (.str "a"), .all [.leaf (.obj [("anyOf", .null)])]])
        = .ok c' ∧ c'.leaves = [.str "a", .obj [("anyOf", .null)]]) ∧
    ∃ c', LeafForm.whole.trip (.all [.leaf (anyOf [])]) = .ok c' ∧
      ∀ decide : Value → Except Unit Bool, c'.tryEvaluate decide = .ok false := by
  constructor
  · have plain : ∀ v ∈ (any [.leaf (.str "a"), .all [.leaf (.obj [("anyOf", .null)])]]).leaves,
        v.Canonical ∧ ¬ Shaped v := by
      simp [leaves, leavesOf, Value.Canonical, Value.CanonicalMembers, Shaped, gives_one_iff]
    obtain ⟨c', arrived, _, same, _⟩ := a_value_arrives_as_what_it_is.2.1 _ plain
    exact ⟨c', arrived, same⟩
  · have named : ∀ v ∈ (all [.leaf (anyOf [])]).leaves,
        v.Canonical ∧ IsNode Names Plain v (.any []) := by
      have node : IsNode Names Plain (anyOf []) (.any []) := .nested (.mk (names_one _ _) .nil)
      simpa [leaves, leavesOf, anyOf, Value.Canonical, Value.CanonicalMembers,
        Value.CanonicalItems] using node
    obtain ⟨c', arrived, _, same⟩ := a_value_arrives_as_what_it_is.2.2 _ (fun _ => .any []) named
    exact ⟨c', arrived, fun decide => same decide⟩

/-- The one leaf of a tree, an empty document, is taken for criteria: no leaf arrives, and what
held does not. -/
theorem a_document_is_lost_as_a_leaf :
    ∃ c', LeafForm.whole.trip (.leaf (anyOf [])) = .ok c' ∧ c'.leaves = [] ∧
      (leaf (anyOf [])).leaves = [anyOf []] ∧
      c'.tryEvaluate (fun _ => .ok true : Value → Except Unit Bool) = .ok false ∧
      (leaf (anyOf [])).tryEvaluate (fun _ => .ok true : Value → Except Unit Bool) = .ok true :=
  ⟨.any [.all [.any []]], rfl, rfl, rfl, rfl, rfl⟩

end Permit.Criteria
