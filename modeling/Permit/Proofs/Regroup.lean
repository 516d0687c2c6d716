-- The groups that a document gives a tree: an "any of" over "all of" groups, whose nodes are
-- leaves or documents again. No decision sees the change.
import Permit.Proofs.Walk

namespace Permit.Criteria

variable {α β : Type}

/-! ## The groups of a document -/

mutual

/-- A tree where a conjunction is due. -/
def asConjunction : Criteria α → Criteria α
  | .leaf a => .all [.leaf a]
  | .all children => .all (asNodes children)
  | .any children => .all [.any (asConjunctions children)]

/-- A tree where a node is due. -/
def asNode : Criteria α → Criteria α
  | .leaf a => .leaf a
  | .all children => .any [.all (asNodes children)]
  | .any children => .any (asConjunctions children)

def asConjunctions : List (Criteria α) → List (Criteria α)
  | [] => []
  | c :: rest => asConjunction c :: asConjunctions rest

def asNodes : List (Criteria α) → List (Criteria α)
  | [] => []
  | c :: rest => asNode c :: asNodes rest

end

/-- A tree where a document is due. -/
def asDocument : Criteria α → Criteria α
  | .any children => .any (asConjunctions children)
  | c => .any [asConjunction c]

theorem asConjunctions_eq (cs : List (Criteria α)) : asConjunctions cs = cs.map asConjunction := by
  induction cs with
  | nil => rfl
  | cons c rest ih => rw [asConjunctions, ih, List.map_cons]

theorem asNodes_eq (cs : List (Criteria α)) : asNodes cs = cs.map asNode := by
  induction cs with
  | nil => rfl
  | cons c rest ih => rw [asNodes, ih, List.map_cons]

/-- A document is the node of a group, or the node of a leaf in a group of one. -/
theorem asDocument_eq (c : Criteria α) :
    asDocument c = asNode c ∨ ∃ a, c = .leaf a ∧ asDocument c = .any [.all [.leaf a]] := by
  cases c with
  | leaf a => exact Or.inr ⟨a, rfl, by rw [asDocument, asConjunction]; simp⟩
  | all cs => exact Or.inl (by rw [asDocument, asConjunction, asNode]; simp)
  | any cs => exact Or.inl (by rw [asDocument, asNode])

/-! ## What the change keeps -/

/-- Both forms of a tree keep what each child keeps. -/
theorem leaves_asNode (c : Criteria α) :
    (asNode c).leaves = c.leaves ∧ (asConjunction c).leaves = c.leaves := by
  have children {f : Criteria α → Criteria α} (cs : List (Criteria α))
      (ih : ∀ c ∈ cs, (f c).leaves = c.leaves) :
      (cs.map f).flatMap leaves = cs.flatMap leaves := by
    rw [List.flatMap_map]
    exact List.flatMap_congr ih
  induction c with
  | leaf a => exact ⟨by rw [asNode], by rw [asConjunction, leaves_all]; simp⟩
  | all cs ih =>
    have nodes := children cs fun c hc => (ih c hc).1
    rw [asNode, asConjunction, asNodes_eq]
    simp [leaves_all, leaves_any, nodes]
  | any cs ih =>
    have conjunctions := children cs fun c hc => (ih c hc).2
    rw [asNode, asConjunction, asConjunctions_eq]
    simp [leaves_all, leaves_any, conjunctions]

theorem map_asNode (f : α → β) (c : Criteria α) :
    asNode (c.map f) = (asNode c).map f ∧ asConjunction (c.map f) = (asConjunction c).map f := by
  induction c with
  | leaf a => exact ⟨by rw [map_leaf, asNode, asNode, map_leaf],
      by simp [map_leaf, asConjunction, map_all]⟩
  | all cs ih =>
    have nodes : (cs.map (map f)).map asNode = (cs.map asNode).map (map f) := by
      simpa using fun c hc => (ih c hc).1
    rw [map_all, asNode, asNode, asConjunction, asConjunction, asNodes_eq, asNodes_eq, nodes]
    simp [map_all, map_any]
  | any cs ih =>
    have conjunctions : (cs.map (map f)).map asConjunction
        = (cs.map asConjunction).map (map f) := by
      simpa using fun c hc => (ih c hc).2
    rw [map_any, asNode, asNode, asConjunction, asConjunction, asConjunctions_eq,
      asConjunctions_eq, conjunctions]
    simp [map_all, map_any]

theorem evaluateM_asNode {m : Type → Type} [Monad m] [LawfulMonad m] (decide : α → m Bool)
    (c : Criteria α) :
    evaluateM decide (asNode c) = evaluateM decide c ∧
      evaluateM decide (asConjunction c) = evaluateM decide c := by
  induction c with
  | leaf a => exact ⟨by rw [asNode], by simp only [asConjunction, evaluateM, everyM_singleton]⟩
  | all cs ih =>
    have nodes := everyM_map_congr decide fun c hc => (ih c hc).1
    rw [asNode, asConjunction, asNodes_eq]
    simp only [evaluateM, someM_singleton, nodes, and_self]
  | any cs ih =>
    have conjunctions := someM_map_congr decide fun c hc => (ih c hc).2
    rw [asNode, asConjunction, asConjunctions_eq]
    simp only [evaluateM, everyM_singleton, conjunctions, and_self]

/-- The groups of a document, as a change that no decision sees. -/
def regroup : Reshaping where
  run := asDocument
  run_map f c := by
    cases c with
    | leaf a => simp [map_leaf, asDocument, asConjunction, map_all, map_any]
    | all cs => simpa [map_all, asDocument, map_any] using (map_asNode f (.all cs)).2
    | any cs => simpa [map_any, asDocument, asNode] using (map_asNode f (.any cs)).1
  leaves_run c := by
    rcases asDocument_eq c with h | ⟨a, rfl, h⟩
    · rw [h, (leaves_asNode c).1]
    · simp [h, leaves_any, leaves_all]
  evaluateM_run decide c := by
    rcases asDocument_eq c with h | ⟨a, rfl, h⟩
    · rw [h, (evaluateM_asNode decide c).1]
    · simp only [h, evaluateM, someM_singleton, everyM_singleton]

end Permit.Criteria
