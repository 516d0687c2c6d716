-- Chains of `and` and of `or`, built by adding one tree after the other. They do not nest, and no
-- decision tells such a chain from the group of all its trees.
import Permit.Proofs.Walk

namespace Permit.Criteria

variable {α : Type}

/-! ## Merging -/

/-- An `all` whose first child is an `all` takes over the children of that child. -/
def mergeAll : Criteria α → Criteria α
  | .all (.all cs :: rest) => .all (cs ++ rest)
  | c => c

/-- An `any` whose first child is an `any` takes over the children of that child. -/
def mergeAny : Criteria α → Criteria α
  | .any (.any cs :: rest) => .any (cs ++ rest)
  | c => c

/-- The merging of `all`, as a change that no decision sees. -/
def mergingAll : Reshaping where
  run := mergeAll
  run_map f c := by
    rcases c with a | (_ | ⟨_ | _ | _, rest⟩) | cs <;> simp [mergeAll, map_leaf, map_all, map_any]
  leaves_run c := by
    unfold mergeAll
    split
    · simp [leaves_all]
    · rfl
  evaluateM_run decide c := by
    unfold mergeAll
    split
    · simp only [evaluateM, everyM, everyM_append]
    · rfl

/-- The merging of `any`, as a change that no decision sees. -/
def mergingAny : Reshaping where
  run := mergeAny
  run_map f c := by
    rcases c with a | cs | (_ | ⟨_ | _ | _, rest⟩) <;> simp [mergeAny, map_leaf, map_all, map_any]
  leaves_run c := by
    unfold mergeAny
    split
    · simp [leaves_any]
    · rfl
  evaluateM_run decide c := by
    unfold mergeAny
    split
    · simp only [evaluateM, someM, someM_append]
    · rfl

theorem depthOf_append (cs ds : List (Criteria α)) :
    depthOf (cs ++ ds) = max (depthOf cs) (depthOf ds) := by
  induction cs with
  | nil => simp [depthOf]
  | cons c rest ih => rw [List.cons_append, depthOf, depthOf, ih, Nat.max_assoc]

theorem depth_mergeAll_le (c : Criteria α) : (mergeAll c).depth ≤ c.depth := by
  unfold mergeAll
  split
  · simp only [depth, depthOf, depthOf_append]
    omega
  · exact Nat.le_refl _

theorem depth_mergeAny_le (c : Criteria α) : (mergeAny c).depth ≤ c.depth := by
  unfold mergeAny
  split
  · simp only [depth, depthOf, depthOf_append]
    omega
  · exact Nat.le_refl _

/-! ## Chains -/

/-- Where each tree is taken in as the last child, all of them become children. -/
theorem foldl_group (op : Criteria α → Criteria α → Criteria α)
    (group : List (Criteria α) → Criteria α)
    (takes : ∀ cs c, op (group cs) c = group (cs ++ [c])) (cs bs : List (Criteria α)) :
    bs.foldl op (group cs) = group (cs ++ bs) := by
  induction bs generalizing cs with
  | nil => rw [List.foldl_nil, List.append_nil]
  | cons b rest ih => rw [List.foldl_cons, takes, ih, List.append_assoc, List.singleton_append]

/-- The first tree is taken for the group if it is one of its kind, and else becomes its first
child. -/
theorem foldl_and (a b : Criteria α) (bs : List (Criteria α)) :
    (b :: bs).foldl and a = mergeAll (.all (a :: b :: bs)) := by
  have grown (cs : List (Criteria α)) := foldl_group and all (fun _ _ => rfl) cs bs
  rw [List.foldl_cons]
  cases a with
  | leaf a => exact grown [.leaf a, b]
  | all cs => exact (grown (cs ++ [b])).trans (by simp [mergeAll])
  | any cs => exact grown [.any cs, b]

theorem foldl_or (a b : Criteria α) (bs : List (Criteria α)) :
    (b :: bs).foldl or a = mergeAny (.any (a :: b :: bs)) := by
  have grown (cs : List (Criteria α)) := foldl_group or any (fun _ _ => rfl) cs bs
  rw [List.foldl_cons]
  cases a with
  | leaf a => exact grown [.leaf a, b]
  | all cs => exact grown [.all cs, b]
  | any cs => exact (grown (cs ++ [b])).trans (by simp [mergeAny])

/-! ## The law of chains -/

/-- No decision tells the trees apart: it comes to the same in both, whatever else it does, and
asks about the leaves at the same places. -/
structure Alike (c d : Criteria α) : Prop where
  evaluateM_eq : ∀ {m : Type → Type} [Monad m] [LawfulMonad m] (decide : α → m Bool),
    evaluateM decide c = evaluateM decide d
  walk_eq : ∀ {ε : Type} (decide : α → Except ε Bool), c.walk decide = d.walk decide

theorem Reshaping.alike (F : Reshaping) (c : Criteria α) : Alike (F.run c) c where
  evaluateM_eq decide := F.evaluateM_run decide c
  walk_eq decide := F.walk_run decide c

theorem depth_group (cs : List (Criteria α)) :
    (all cs).depth = 1 + (cs.map depth).foldr max 0 ∧
      (any cs).depth = 1 + (cs.map depth).foldr max 0 := by
  have deepest : depthOf cs = (cs.map depth).foldr max 0 := by
    induction cs with
    | nil => rfl
    | cons c rest ih => rw [depthOf, ih, List.map_cons, List.foldr_cons]
  rw [depth, depth, deepest, Nat.add_comm]
  exact ⟨rfl, rfl⟩

/-- Trees that are joined one after the other by `and` are decided as the `all` of them is, with
the same leaves asked about in the same order. The chain has the leaves of all of them and nests at
most one level deeper than the deepest, however many they are. So it is for `or` and `any`. -/
theorem chains_do_not_nest (a b : Criteria α) (bs : List (Criteria α)) :
    let trees := a :: b :: bs
    let deepest := (trees.map depth).foldr max 0
    let both := (b :: bs).foldl and a
    let either := (b :: bs).foldl or a
    (Alike both (.all trees) ∧ both.leaves = trees.flatMap leaves ∧ both.depth ≤ 1 + deepest) ∧
    (Alike either (.any trees) ∧ either.leaves = trees.flatMap leaves ∧
      either.depth ≤ 1 + deepest) := by
  intro trees deepest both either
  have isAll : both = mergingAll.run (.all trees) := foldl_and a b bs
  have isAny : either = mergingAny.run (.any trees) := foldl_or a b bs
  obtain ⟨levelsAll, levelsAny⟩ := depth_group trees
  rw [isAll, isAny]
  refine ⟨⟨mergingAll.alike _, ?_, ?_⟩, mergingAny.alike _, ?_, ?_⟩
  · rw [mergingAll.leaves_run, leaves_all]
  · exact levelsAll ▸ depth_mergeAll_le (.all trees)
  · rw [mergingAny.leaves_run, leaves_any]
  · exact levelsAny ▸ depth_mergeAny_le (.any trees)

end Permit.Criteria
