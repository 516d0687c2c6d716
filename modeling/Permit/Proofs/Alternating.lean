-- What stays of a tree that goes through both formats in turn, as a document and then as a
-- text. One round settles it: the groups that the two formats leave are those of a shape that
-- both keep, so each further round gives the same tree.
import Permit.Proofs.Documents
import Permit.Proofs.Refusals

namespace Permit.Criteria

open Expression Expression.Grammar

variable {α : Type}

/-! ## One round -/

/-- The conjuncts that are left of a tree when its document is printed. -/
def conjuncts (c : Criteria α) : List (Criteria α) := parts true (asNode c)

/-- What is left of a tree when its document is printed and read. -/
def afterRound (c : Criteria α) : Criteria α := asText (asDocument c)

theorem parts_asConjunction (c : Criteria α) : parts true (asConjunction c) = conjuncts c := by
  unfold conjuncts
  cases c with
  | leaf a => simp [asConjunction, asNode, parts_all]
  | all cs => rw [asConjunction, asNode, parts_any_one]
  | any cs => simp [asConjunction, asNode, parts_all]

/-- Outside of an `all` the text of a conjunction is one part. -/
theorem parts_asConjunction_outside (c : Criteria α) :
    parts false (asConjunction c) = [gather .all (conjuncts c)] := by
  rw [← parts_asConjunction]
  obtain ⟨cs, same⟩ : ∃ cs, asConjunction c = .all cs := by
    cases c with
    | leaf a => exact ⟨_, by rw [asConjunction]⟩
    | all cs => exact ⟨_, by rw [asConjunction]⟩
    | any cs => exact ⟨_, by rw [asConjunction]⟩
  rw [same]
  cases cs with
  | nil => rw [parts_all_nil, parts_all_nil]; rfl
  | cons d rest => rw [parts_all, parts_all, if_pos rfl, if_neg (by decide)]

/-- The conjunctions of a document are one part each. -/
theorem flatMap_asConjunction (cs : List (Criteria α)) :
    (cs.map asConjunction).flatMap (parts false)
      = cs.map fun c => gather .all (conjuncts c) := by
  rw [List.flatMap_map, List.map_eq_flatMap]
  exact List.flatMap_congr fun c _ => parts_asConjunction_outside c

/-- A round leaves the conjuncts of a tree, in an `all` if there are several. -/
theorem afterRound_eq (c : Criteria α) : afterRound c = gather .all (conjuncts c) := by
  have conjunction (c : Criteria α) : asText (.any [asConjunction c])
      = gather .all (conjuncts c) := by
    rw [asText, parts_any_one, parts_asConjunction_outside]
    rfl
  unfold afterRound
  rcases c with a | cs | (_ | ⟨c, _ | ⟨d, rest⟩⟩)
  · rw [asDocument, conjunction]
    simp
  · rw [asDocument, conjunction]
    simp
  · rw [asDocument, asConjunctions, conjuncts, asNode, asConjunctions, asText, parts_any_nil,
      parts_any_nil]
    rfl
  · rw [asDocument, asConjunctions, asConjunctions, conjunction, ← parts_asConjunction c,
      conjuncts, asNode, asConjunctions, asConjunctions, parts_any_one]
  · rw [conjuncts, asNode, asDocument, asText, asConjunctions_eq, List.map_cons, List.map_cons,
      parts_any, parts_any, if_neg (by decide), if_pos rfl]
    rw [← List.map_cons, ← List.map_cons, flatMap_asConjunction]
    rfl

/-! ### The conjuncts of each tree -/

theorem conjuncts_leaf (a : α) : conjuncts (.leaf a) = [.leaf a] := by
  unfold conjuncts
  rw [asNode, parts_leaf]

theorem conjuncts_all_nil : conjuncts (.all [] : Criteria α) = [.all []] := by
  unfold conjuncts
  rw [asNode, asNodes, parts_any_one, parts_all_nil]

theorem conjuncts_any_nil : conjuncts (.any [] : Criteria α) = [.any []] := by
  unfold conjuncts
  rw [asNode, asConjunctions, parts_any_nil]

theorem conjuncts_all (c : Criteria α) (rest : List (Criteria α)) :
    conjuncts (.all (c :: rest)) = (c :: rest).flatMap conjuncts := by
  rw [conjuncts, asNode, asNodes, parts_any_one, parts_all, if_pos rfl, asNodes_eq,
    ← List.map_cons, List.flatMap_map]
  rfl

theorem conjuncts_any_one (c : Criteria α) : conjuncts (.any [c]) = conjuncts c := by
  rw [conjuncts, asNode, asConjunctions, asConjunctions, parts_any_one, parts_asConjunction]

theorem conjuncts_any (c d : Criteria α) (rest : List (Criteria α)) :
    conjuncts (.any (c :: d :: rest)) = [.any ((c :: d :: rest).map afterRound)] := by
  rw [conjuncts, asNode, asConjunctions_eq, List.map_cons, List.map_cons, parts_any, if_pos rfl,
    ← List.map_cons, ← List.map_cons, flatMap_asConjunction, funext afterRound_eq]
  rfl

theorem conjuncts_ne_nil (c : Criteria α) : conjuncts c ≠ [] := by
  induction c using cases_of_text with
  | leaf a => rw [conjuncts_leaf]; simp
  | allNil => rw [conjuncts_all_nil]; simp
  | anyNil => rw [conjuncts_any_nil]; simp
  | all c rest ih =>
    rw [conjuncts_all, List.flatMap_cons]
    exact List.append_ne_nil_of_left_ne_nil (ih c (by simp)) _
  | anyOne c ih => rwa [conjuncts_any_one]
  | any c d rest _ => rw [conjuncts_any]; simp

/-! ## The shape that stays -/

/-- No group has one child, and no `all` with children stands directly inside an `all`. An `any`
may stand inside an `any`: a document keeps the two apart. -/
inductive Settled : Criteria α → Prop
  | leaf (a : α) : Settled (.leaf a)
  | all {cs} : cs.length ≠ 1 → (∀ c ∈ cs, Settled c) → (∀ c ∈ cs, ∀ d ds, c ≠ .all (d :: ds)) →
      Settled (.all cs)
  | any {cs} : cs.length ≠ 1 → (∀ c ∈ cs, Settled c) → Settled (.any cs)

/-- An `all` of conjuncts that are settled and no `all` with children. -/
theorem settled_gather {cs : List (Criteria α)} (ne : cs ≠ [])
    (each : ∀ c ∈ cs, Settled c ∧ ∀ d ds, c ≠ .all (d :: ds)) : Settled (gather .all cs) := by
  by_cases length : cs.length = 1
  · obtain ⟨c, rfl⟩ := List.length_eq_one_iff.1 length
    exact (each c (by simp)).1
  · rw [gather_of_length length]
    exact .all length (fun c hc => (each c hc).1) fun c hc => (each c hc).2

theorem settled_conjuncts (c : Criteria α) :
    ∀ e ∈ conjuncts c, Settled e ∧ ∀ d ds, e ≠ .all (d :: ds) := by
  induction c using cases_of_text with
  | leaf a =>
    rw [conjuncts_leaf, List.forall_mem_singleton]
    exact ⟨.leaf a, nofun⟩
  | allNil =>
    rw [conjuncts_all_nil, List.forall_mem_singleton]
    exact ⟨.all (by simp) (by simp) (by simp), nofun⟩
  | anyNil =>
    rw [conjuncts_any_nil, List.forall_mem_singleton]
    exact ⟨.any (by simp) (by simp), nofun⟩
  | all c rest ih =>
    rw [conjuncts_all]
    intro e he
    obtain ⟨d, hd, he⟩ := List.mem_flatMap.1 he
    exact ih d hd e he
  | anyOne c ih => rwa [conjuncts_any_one]
  | any c d rest ih =>
    rw [conjuncts_any, List.forall_mem_singleton]
    refine ⟨.any (by simp) (List.forall_mem_map.2 fun e he => ?_), nofun⟩
    rw [afterRound_eq]
    exact settled_gather (conjuncts_ne_nil e) (ih e he)

/-- A round settles each tree. -/
theorem settled_afterRound (c : Criteria α) : Settled (afterRound c) := by
  rw [afterRound_eq]
  exact settled_gather (conjuncts_ne_nil c) (settled_conjuncts c)

/-- A settled tree is one conjunct, but for an `all` with children, and a round keeps it. -/
theorem Settled.conjuncts_eq {c : Criteria α} (h : Settled c) :
    ((∀ d ds, c ≠ .all (d :: ds)) → conjuncts c = [c]) ∧ afterRound c = c := by
  induction h with
  | leaf a => exact ⟨fun _ => conjuncts_leaf a, by rw [afterRound_eq, conjuncts_leaf]; rfl⟩
  | @all cs length _ apart ih =>
    rcases cs with _ | ⟨c, rest⟩
    · exact ⟨fun _ => conjuncts_all_nil, by rw [afterRound_eq, conjuncts_all_nil]; rfl⟩
    · have children := flatMap_of_singletons fun d hd => (ih d hd).1 (apart d hd)
      refine ⟨fun h => absurd rfl (h c rest), ?_⟩
      rw [afterRound_eq, conjuncts_all, children, gather_of_length length]
  | @any cs length _ ih =>
    rcases cs with _ | ⟨c, _ | ⟨d, rest⟩⟩
    · exact ⟨fun _ => conjuncts_any_nil, by rw [afterRound_eq, conjuncts_any_nil]; rfl⟩
    · exact absurd rfl length
    · have children : (c :: d :: rest).map afterRound = c :: d :: rest :=
        (List.map_congr_left fun e he => (ih e he).2).trans (List.map_id _)
      have one : conjuncts (.any (c :: d :: rest)) = [.any (c :: d :: rest)] := by
        rw [conjuncts_any, children]
      exact ⟨fun _ => one, by rw [afterRound_eq, one]; rfl⟩

/-- The settled trees are those that a round keeps. -/
theorem afterRound_eq_self_iff {c : Criteria α} : afterRound c = c ↔ Settled c := by
  constructor
  · intro same
    rw [← same]
    exact settled_afterRound c
  · exact fun h => h.conjuncts_eq.2

theorem leaves_afterRound (c : Criteria α) : (afterRound c).leaves = c.leaves :=
  (flatten.leaves_run (asDocument c)).trans (regroup.leaves_run c)

/-! ## Parentheses -/

/-- How many groups in parentheses the printed document of a tree has open at once inside an
`all`. -/
def opens (c : Criteria α) : Nat := parens true (asNode c)

/-- A conjunction opens as many groups wherever it stands. -/
theorem parens_asConjunction (inAll : Bool) (c : Criteria α) :
    parens inAll (asConjunction c) = opens c := by
  unfold opens
  cases c with
  | leaf a => simp [asConjunction, asNode, parens_all, parensOf, parens]
  | all cs =>
    rw [asConjunction, asNode, parens_any_one]
    cases cs with
    | nil => simp [asNodes, parens]
    | cons c rest => rw [asNodes, parens_all, parens_all]
  | any cs => simp [asConjunction, asNode, parens_all, parensOf]

theorem opens_all_le {cs : List (Criteria α)} {n : Nat} :
    opens (.all cs) ≤ n ↔ ∀ c ∈ cs, opens c ≤ n := by
  rw [opens, asNode, parens_any_one, asNodes_eq]
  cases cs with
  | nil => simp [parens]
  | cons c rest =>
    rw [List.map_cons, parens_all, ← List.map_cons, parensOf_le]
    exact List.forall_mem_map

theorem opens_any_one (c : Criteria α) : opens (.any [c]) = opens c := by
  rw [opens, asNode, asConjunctions, asConjunctions, parens_any_one, parens_asConjunction]

/-- The groups that the conjunctions of several trees open are those of the worst of them. -/
theorem parensOf_asConjunction_le {cs : List (Criteria α)} {n : Nat} :
    parensOf false (cs.map asConjunction) ≤ n ↔ ∀ c ∈ cs, opens c ≤ n := by
  rw [parensOf_le, List.forall_mem_map]
  simp only [parens_asConjunction]

theorem parens_asNode_any (inAll : Bool) (c d : Criteria α) (rest : List (Criteria α)) :
    parens inAll (asNode (.any (c :: d :: rest)))
      = parensOf false ((c :: d :: rest).map asConjunction) + if inAll then 1 else 0 := by
  rw [asNode, asConjunctions_eq, List.map_cons, List.map_cons, parens_any]

theorem opens_gather {cs : List (Criteria α)} {n : Nat} (each : ∀ c ∈ cs, opens c ≤ n) :
    opens (gather .all cs) ≤ n := by
  by_cases length : cs.length = 1
  · obtain ⟨c, rfl⟩ := List.length_eq_one_iff.1 length
    exact each c (by simp)
  · rw [gather_of_length length, opens_all_le]
    exact each

/-- If no child opens more groups once it is settled, then a group of all children does not. -/
theorem parens_any_afterRound {inAll : Bool} {c d : Criteria α} {rest : List (Criteria α)}
    (each : ∀ e ∈ c :: d :: rest, opens (afterRound e) ≤ opens e) :
    parens inAll (asNode (.any ((c :: d :: rest).map afterRound)))
      ≤ parens inAll (asNode (.any (c :: d :: rest))) := by
  have children : parensOf false (((c :: d :: rest).map afterRound).map asConjunction)
      ≤ parensOf false ((c :: d :: rest).map asConjunction) := by
    rw [parensOf_asConjunction_le, List.forall_mem_map]
    intro e he
    exact (each e he).trans (parensOf_asConjunction_le.1 (Nat.le_refl _) e he)
  rw [parens_asNode_any, List.map_cons, List.map_cons, parens_asNode_any]
  exact Nat.add_le_add_right children _

/-- No conjunct opens more groups than the tree. -/
theorem opens_conjuncts (c : Criteria α) : ∀ e ∈ conjuncts c, opens e ≤ opens c := by
  induction c using cases_of_text with
  | leaf a => simp [conjuncts_leaf]
  | allNil => simp [conjuncts_all_nil]
  | anyNil => simp [conjuncts_any_nil]
  | all c rest ih =>
    intro e he
    rw [conjuncts_all] at he
    obtain ⟨d, hd, he⟩ := List.mem_flatMap.1 he
    exact (ih d hd e he).trans (opens_all_le.1 (Nat.le_refl _) d hd)
  | anyOne c ih =>
    rw [conjuncts_any_one, opens_any_one]
    exact ih
  | any c d rest ih =>
    rw [conjuncts_any, List.forall_mem_singleton]
    apply parens_any_afterRound
    intro f hf
    rw [afterRound_eq]
    exact opens_gather (ih f hf)

theorem opens_afterRound (c : Criteria α) : opens (afterRound c) ≤ opens c := by
  rw [afterRound_eq]
  exact opens_gather (opens_conjuncts c)

theorem parens_asDocument_le (c : Criteria α) : parens false (asDocument c) ≤ opens c := by
  rcases asDocument_eq c with same | ⟨a, rfl, same⟩
  · rw [same]
    exact (parens_true_le _).1
  · rw [same]
    simp [parens, parensOf]

/-- The document of a settled tree opens no more groups than that of the tree it comes from. -/
theorem parens_afterRound (c : Criteria α) :
    parens false (asDocument (afterRound c)) ≤ parens false (asDocument c) := by
  have bound := (parens_asDocument_le (afterRound c)).trans (opens_afterRound c)
  have one (c : Criteria α) : parens false (.any [asConjunction c]) = opens c := by
    rw [parens_any_one, parens_asConjunction]
  rcases c with a | cs | (_ | ⟨c, _ | ⟨d, rest⟩⟩)
  · rw [← one] at bound
    simpa [asDocument] using bound
  · rw [← one] at bound
    simpa [asDocument] using bound
  · rw [afterRound_eq, conjuncts_any_nil]
    exact Nat.le_refl _
  · rw [opens_any_one, ← one] at bound
    simpa [asDocument, asConjunctions] using bound
  · have group : afterRound (.any (c :: d :: rest)) = .any ((c :: d :: rest).map afterRound) := by
      rw [afterRound_eq, conjuncts_any]
      rfl
    rw [group]
    exact parens_any_afterRound fun e _ => opens_afterRound e

/-! ## The number of nodes -/

mutual

/-- How many leaves and groups a tree has. -/
def nodeCount : Criteria α → Nat
  | .leaf _ => 1
  | .all children => nodeCountOf children + 1
  | .any children => nodeCountOf children + 1

def nodeCountOf : List (Criteria α) → Nat
  | [] => 0
  | c :: rest => nodeCount c + nodeCountOf rest

end

theorem nodeCountOf_append (cs ds : List (Criteria α)) :
    nodeCountOf (cs ++ ds) = nodeCountOf cs + nodeCountOf ds := by
  induction cs with
  | nil => simp [nodeCountOf]
  | cons c rest ih => rw [List.cons_append, nodeCountOf, nodeCountOf, ih, Nat.add_assoc]

theorem nodeCountOf_flatMap_le {f : Criteria α → List (Criteria α)} {cs : List (Criteria α)}
    (each : ∀ c ∈ cs, nodeCountOf (f c) ≤ nodeCount c) :
    nodeCountOf (cs.flatMap f) ≤ nodeCountOf cs := by
  induction cs with
  | nil => exact Nat.le_refl _
  | cons c rest ih =>
    rw [List.flatMap_cons, nodeCountOf_append, nodeCountOf]
    exact Nat.add_le_add (each c (by simp)) (ih fun d hd => each d (by simp [hd]))

theorem nodeCount_gather_le (cs : List (Criteria α)) :
    nodeCount (gather .all cs) ≤ nodeCountOf cs + 1 := by
  unfold gather
  split
  · simp [nodeCountOf]
  · rw [nodeCount]

/-- No round adds a node to a tree. -/
theorem nodeCount_afterRound_le (c : Criteria α) :
    nodeCountOf (conjuncts c) ≤ nodeCount c ∧ nodeCount (afterRound c) ≤ nodeCount c := by
  induction c using cases_of_text with
  | leaf a => simp [afterRound_eq, conjuncts_leaf, gather, nodeCountOf]
  | allNil => simp [afterRound_eq, conjuncts_all_nil, gather, nodeCountOf]
  | anyNil => simp [afterRound_eq, conjuncts_any_nil, gather, nodeCountOf]
  | all c rest ih =>
    have children := nodeCountOf_flatMap_le fun d hd => (ih d hd).1
    rw [afterRound_eq, conjuncts_all, nodeCount]
    exact ⟨Nat.le_succ_of_le children,
      (nodeCount_gather_le _).trans (Nat.succ_le_succ children)⟩
  | anyOne c ih =>
    rw [afterRound_eq, conjuncts_any_one, ← afterRound_eq, nodeCount, nodeCountOf, nodeCountOf]
    exact ⟨Nat.le_succ_of_le ih.1, Nat.le_succ_of_le ih.2⟩
  | any c d rest ih =>
    have children := nodeCountOf_flatMap_le (f := fun e => [afterRound e]) fun e he => by
      simpa [nodeCountOf] using (ih e he).2
    rw [← List.map_eq_flatMap] at children
    rw [afterRound_eq, conjuncts_any, nodeCountOf, nodeCountOf, gather, nodeCount, nodeCount]
    exact ⟨Nat.succ_le_succ children, Nat.succ_le_succ children⟩

/-! ## Round after round -/

/-- What arrives when a tree is sent as a document, printed as a text and read again. -/
def alternate (c : Criteria Condition) : Option (Criteria Condition) :=
  match LeafForm.condition.trip c with
  | .error _ => none
  | .ok d => (ofText (toString d)).toOption

/-- What arrives after so many rounds. -/
def rounds : Nat → Criteria Condition → Option (Criteria Condition)
  | 0, c => some c
  | n + 1, c => (alternate c).bind (rounds n)

/-- The nesting limits alone decide whether a tree gets through a round. -/
theorem alternate_eq_some_iff {c d : Criteria Condition}
    (names : ∀ k ∈ c.leaves, Name k.rule.toList) :
    alternate c = some d ↔ Writable (asDocument c) ∧ d = afterRound c := by
  have kept : (asDocument c).leaves = c.leaves := regroup.leaves_run c
  have read : ofText (toString (asDocument c)) = .ok d
      ↔ Writable (asDocument c) ∧ d = afterRound c := ofText_toString_iff (by rwa [kept])
  have trip : LeafForm.condition.trip c = .ok (asDocument c) :=
    LeafForm.faithful_condition.trip_eq c
  rw [alternate, trip, ← read]
  dsimp only
  cases ofText (toString (asDocument c)) <;> simp [Except.toOption]

/-- What gets through one round gets through the next. -/
theorem writable_afterRound {c : Criteria Condition} (writable : Writable (asDocument c)) :
    Writable (asDocument (afterRound c)) := by
  have kept : (asDocument (afterRound c)).leaves = (asDocument c).leaves := by
    rw [show (asDocument (afterRound c)).leaves = (afterRound c).leaves from regroup.leaves_run _,
      leaves_afterRound]
    exact (regroup.leaves_run c).symm
  refine ⟨?_, (parens_afterRound c).trans writable.parens⟩
  rw [kept]
  exact writable.leaves

theorem rounds_of_fixed {c : Criteria Condition} (fixed : alternate c = some c) (n : Nat) :
    rounds n c = some c := by
  induction n with
  | zero => rfl
  | succ n ih => rw [rounds, fixed, Option.bind_some, ih]

/-- Going through both formats in turn, a tree whose rules have names of the grammar always
passes the document, and it passes the text exactly if its document is writable. What one round
gives is settled: each further round passes and gives that same tree. It has the leaves of the
first in their order, and no more nodes. -/
theorem one_round_settles_a_tree (t : Criteria Condition)
    (names : ∀ k ∈ t.leaves, Name k.rule.toList) :
    LeafForm.condition.trip t = .ok (asDocument t) ∧
    (∀ u, alternate t = some u ↔ Writable (asDocument t) ∧ u = afterRound t) ∧
    ∀ u, alternate t = some u → alternate u = some u ∧ (∀ n, rounds n u = some u) ∧
      Settled u ∧ u.leaves = t.leaves ∧ u.nodeCount ≤ t.nodeCount := by
  refine ⟨LeafForm.faithful_condition.trip_eq t, fun u => alternate_eq_some_iff names,
    fun u h => ?_⟩
  obtain ⟨writable, rfl⟩ := (alternate_eq_some_iff names).1 h
  have shape := settled_afterRound t
  have leaves := leaves_afterRound t
  have fixed : alternate (afterRound t) = some (afterRound t) := by
    rw [alternate_eq_some_iff (by rwa [leaves])]
    exact ⟨writable_afterRound writable, (afterRound_eq_self_iff.2 shape).symm⟩
  exact ⟨fixed, rounds_of_fixed fixed, shape, leaves, (nodeCount_afterRound_le t).2⟩

/-- Groups of one, and an "any of" inside an "any of". -/
def tangled (k : Condition) : Criteria Condition :=
  .any [.all [.leaf k], .any [.leaf k, .all [.any [.leaf k]]]]

/-- A tree that one round changes, and the next one does not. -/
theorem a_tangled_tree_settles : ∃ k : Condition,
    (∀ l ∈ (tangled k).leaves, Name l.rule.toList) ∧
    alternate (tangled k) = some (.any [.leaf k, .any [.leaf k, .leaf k]]) ∧
    alternate (.any [.leaf k, .any [.leaf k, .leaf k]])
      = some (.any [.leaf k, .any [.leaf k, .leaf k]]) := by
  let k : Condition := ⟨"admin", [], rfl, by simp⟩
  have spellable : ∀ l ∈ (tangled k).leaves, Spellable l := by
    have isName : Name "admin".toList := .mk rfl (List.all_eq_true.1 rfl)
    simpa [tangled, leaves, leavesOf, Spellable, k] using isName
  have names : ∀ l ∈ (tangled k).leaves, Name l.rule.toList := fun l hl => (spellable l hl).1
  have kept : (asDocument (tangled k)).leaves = (tangled k).leaves :=
    regroup.leaves_run (tangled k)
  obtain ⟨_, passes, fixed⟩ := one_round_settles_a_tree (tangled k) names
  have enough : parens false (asDocument (tangled k)) ≤ maxNesting := by
    have one : parens false (asDocument (tangled k)) = 1 := rfl
    rw [one]
    decide
  have first := (passes _).2 ⟨⟨kept ▸ spellable, enough⟩, rfl⟩
  exact ⟨k, names, first, (fixed _ first).1⟩

end Permit.Criteria
