-- What a decision sees of a tree: the leaves it asks about, each by its place, and their
-- order. A change of the groups that keeps all of this is a reshaping.
import Mathlib.Data.List.Basic
import Permit.Criteria.Basic

namespace Permit.Criteria

variable {α β ε : Type}

/-! ## Trees from the bottom up -/

/-- What holds of each leaf, and of a group as soon as it holds of the children, holds of
each tree. -/
@[induction_eliminator]
theorem induction {P : Criteria α → Prop} (leaf : ∀ a, P (.leaf a))
    (all : ∀ children, (∀ c ∈ children, P c) → P (.all children))
    (any : ∀ children, (∀ c ∈ children, P c) → P (.any children)) (c : Criteria α) : P c := by
  apply Criteria.rec (motive_1 := P) (motive_2 := fun cs => ∀ c ∈ cs, P c)
  · exact leaf
  · exact all
  · exact any
  · simp
  · intro c rest hc hrest d hd
    rcases List.mem_cons.1 hd with rfl | hd
    · exact hc
    · exact hrest d hd

theorem leavesOf_eq (cs : List (Criteria α)) : leavesOf cs = cs.flatMap leaves := by
  induction cs with
  | nil => rfl
  | cons c rest ih => rw [leavesOf, ih, List.flatMap_cons]

theorem leaves_all (cs : List (Criteria α)) : (all cs).leaves = cs.flatMap leaves := by
  rw [leaves, leavesOf_eq]

theorem leaves_any (cs : List (Criteria α)) : (any cs).leaves = cs.flatMap leaves := by
  rw [leaves, leavesOf_eq]

theorem mem_leaves_all {cs : List (Criteria α)} {c : Criteria α} {a : α} (hc : c ∈ cs)
    (ha : a ∈ c.leaves) : a ∈ (all cs).leaves := by
  rw [leaves_all]
  exact List.mem_flatMap.2 ⟨c, hc, ha⟩

theorem mem_leaves_any {cs : List (Criteria α)} {c : Criteria α} {a : α} (hc : c ∈ cs)
    (ha : a ∈ c.leaves) : a ∈ (any cs).leaves := by
  rw [leaves_any]
  exact List.mem_flatMap.2 ⟨c, hc, ha⟩

/-! ## Replacing leaves -/

theorem map_leaf (f : α → β) (a : α) : map f (leaf a) = leaf (f a) := by
  unfold map
  rw [mapM]
  rfl

theorem mapAllM_id (f : α → β) (cs : List (Criteria α)) :
    Id.run (mapAllM (m := Id) (fun a => pure (f a)) cs) = cs.map (map f) := by
  induction cs with
  | nil =>
    rw [mapAllM]
    rfl
  | cons c rest ih =>
    rw [mapAllM, List.map_cons, ← ih]
    rfl

theorem map_all (f : α → β) (cs : List (Criteria α)) : map f (all cs) = all (cs.map (map f)) := by
  rw [← mapAllM_id]
  unfold map
  rw [mapM]
  rfl

theorem map_any (f : α → β) (cs : List (Criteria α)) : map f (any cs) = any (cs.map (map f)) := by
  rw [← mapAllM_id]
  unfold map
  rw [mapM]
  rfl

theorem leaves_map (f : α → β) (c : Criteria α) : (c.map f).leaves = c.leaves.map f := by
  have children (cs : List (Criteria α)) (ih : ∀ c ∈ cs, (c.map f).leaves = c.leaves.map f) :
      (cs.map (map f)).flatMap leaves = (cs.flatMap leaves).map f := by
    rw [List.flatMap_map, List.map_flatMap]
    exact List.flatMap_congr ih
  induction c with
  | leaf a => rw [map_leaf]; rfl
  | all cs ih => rw [map_all, leaves_all, leaves_all, children cs ih]
  | any cs ih => rw [map_any, leaves_any, leaves_any, children cs ih]

/-- A tree is known by its shape and its leaves. -/
theorem eq_of_map_eq_of_leaves_eq {f : α → β} {c d : Criteria α} (shape : c.map f = d.map f)
    (same : c.leaves = d.leaves) : c = d := by
  have children {cs : List (Criteria α)}
      (ih : ∀ c ∈ cs, ∀ {d}, c.map f = d.map f → c.leaves = d.leaves → c = d) :
      ∀ {ds : List (Criteria α)}, cs.map (map f) = ds.map (map f) →
        cs.flatMap leaves = ds.flatMap leaves → cs = ds := by
    induction cs with
    | nil =>
      intro ds shape _
      exact (List.map_eq_nil_iff.1 shape.symm).symm
    | cons c rest ihRest =>
      intro ds shape same
      cases ds with
      | nil => cases shape
      | cons d ds =>
        obtain ⟨hc, hrest⟩ := List.cons.inj shape
        have hlen : c.leaves.length = d.leaves.length := by
          rw [← List.length_map f, ← leaves_map, hc, leaves_map, List.length_map]
        obtain ⟨sc, srest⟩ := List.append_inj (by simpa using same) hlen
        rw [ih c (by simp) hc sc, ihRest (fun e he => ih e (by simp [he])) hrest srest]
  induction c generalizing d with
  | leaf a =>
    cases d with
    | leaf b => simpa [leaves] using same
    | all ds => rw [map_leaf, map_all] at shape; cases shape
    | any ds => rw [map_leaf, map_any] at shape; cases shape
  | all cs ih =>
    cases d with
    | leaf b => rw [map_leaf, map_all] at shape; cases shape
    | all ds =>
      rw [map_all, map_all] at shape
      rw [leaves_all, leaves_all] at same
      rw [children ih (all.inj shape) same]
    | any ds => rw [map_all, map_any] at shape; cases shape
  | any cs ih =>
    cases d with
    | leaf b => rw [map_leaf, map_any] at shape; cases shape
    | all ds => rw [map_all, map_any] at shape; cases shape
    | any ds =>
      rw [map_any, map_any] at shape
      rw [leaves_any, leaves_any] at same
      rw [children ih (any.inj shape) same]

/-! ## Places -/

mutual

/-- Each leaf with its place among the leaves, counted from `n`. -/
def numberFrom (n : Nat) : Criteria α → Criteria (α × Nat)
  | .leaf a => .leaf (a, n)
  | .all children => .all (numberAllFrom n children)
  | .any children => .any (numberAllFrom n children)

def numberAllFrom (n : Nat) : List (Criteria α) → List (Criteria (α × Nat))
  | [] => []
  | c :: rest => numberFrom n c :: numberAllFrom (n + c.leaves.length) rest

end

theorem leaves_numberFrom (n : Nat) (c : Criteria α) :
    (numberFrom n c).leaves = c.leaves.zipIdx n := by
  have children (cs : List (Criteria α))
      (ih : ∀ c ∈ cs, ∀ n, (numberFrom n c).leaves = c.leaves.zipIdx n) :
      ∀ n, (numberAllFrom n cs).flatMap leaves = (cs.flatMap leaves).zipIdx n := by
    induction cs with
    | nil => intro n; rfl
    | cons c rest ihRest =>
      intro n
      rw [numberAllFrom, List.flatMap_cons, List.flatMap_cons, ih c (by simp),
        ihRest (fun d hd => ih d (by simp [hd])), List.zipIdx_append]
  induction c generalizing n with
  | leaf a => rw [numberFrom]; rfl
  | all cs ih => rw [numberFrom, leaves_all, leaves_all, children cs ih]
  | any cs ih => rw [numberFrom, leaves_any, leaves_any, children cs ih]

theorem map_fst_numberFrom (n : Nat) (c : Criteria α) : (numberFrom n c).map Prod.fst = c := by
  have children (cs : List (Criteria α))
      (ih : ∀ c ∈ cs, ∀ n, (numberFrom n c).map Prod.fst = c) :
      ∀ n, (numberAllFrom n cs).map (map Prod.fst) = cs := by
    induction cs with
    | nil => intro n; rfl
    | cons c rest ihRest =>
      intro n
      rw [numberAllFrom, List.map_cons, ih c (by simp), ihRest fun d hd => ih d (by simp [hd])]
  induction c generalizing n with
  | leaf a => rw [numberFrom, map_leaf]
  | all cs ih => rw [numberFrom, map_all, children cs ih]
  | any cs ih => rw [numberFrom, map_any, children cs ih]

/-! ## Walks -/

/-- The answer for a leaf, after its place was noted. -/
def noting (decide : α → Except ε Bool) (leaf : α × Nat) : ExceptT ε (StateM (List Nat)) Bool := do
  modify (· ++ [leaf.2])
  ExceptT.mk (pure (decide leaf.1))

/-- The outcome of the tree, and the places of the leaves that were asked about, in their
order. -/
def walk (decide : α → Except ε Bool) (c : Criteria α) : Except ε Bool × List Nat :=
  Id.run ((evaluateM (noting decide) (numberFrom 0 c)).run.run [])

/-- The outcome when the walk goes on from the places noted so far. -/
def outcome (x : ExceptT ε (StateM (List Nat)) Bool) (noted : List Nat) : Except ε Bool :=
  (Id.run (x.run.run noted)).1

/-- An outcome that does not hang on the places noted passes through a step. -/
theorem outcome_bind {x : ExceptT ε (StateM (List Nat)) Bool} {r : Except ε Bool}
    {f : Bool → ExceptT ε (StateM (List Nat)) Bool} {g : Bool → Except ε Bool}
    (hx : ∀ noted, outcome x noted = r) (hf : ∀ b noted, outcome (f b) noted = g b)
    (noted : List Nat) : outcome (x >>= f) noted = r >>= g := by
  have first := hx noted
  unfold outcome at first hf ⊢
  simp only [ExceptT.run_bind, StateT.run_bind, Id.run_bind, ← first]
  rcases Id.run (x.run.run noted) with ⟨_ | b, later⟩
  · rfl
  · exact hf b later

theorem outcome_numberFrom (decide : α → Except ε Bool) (c : Criteria α) (n : Nat)
    (noted : List Nat) :
    outcome (evaluateM (noting decide) (numberFrom n c)) noted = evaluateM decide c := by
  have every (cs : List (Criteria α)) (ih : ∀ c ∈ cs, ∀ n noted,
      outcome (evaluateM (noting decide) (numberFrom n c)) noted = evaluateM decide c) :
      ∀ n noted, outcome (everyM (noting decide) (numberAllFrom n cs)) noted
        = everyM decide cs := by
    induction cs with
    | nil => intro n noted; rfl
    | cons c rest ihRest =>
      intro n noted
      rw [numberAllFrom, everyM, everyM]
      refine outcome_bind (ih c (by simp) n) (fun b noted => ?_) noted
      cases b
      · rfl
      · exact ihRest (fun d hd => ih d (by simp [hd])) _ noted
  have some (cs : List (Criteria α)) (ih : ∀ c ∈ cs, ∀ n noted,
      outcome (evaluateM (noting decide) (numberFrom n c)) noted = evaluateM decide c) :
      ∀ n noted, outcome (someM (noting decide) (numberAllFrom n cs)) noted
        = someM decide cs := by
    induction cs with
    | nil => intro n noted; rfl
    | cons c rest ihRest =>
      intro n noted
      rw [numberAllFrom, someM, someM]
      refine outcome_bind (ih c (by simp) n) (fun b noted => ?_) noted
      cases b
      · exact ihRest (fun d hd => ih d (by simp [hd])) _ noted
      · rfl
  induction c generalizing n noted with
  | leaf a => rfl
  | all cs ih => rw [numberFrom, evaluateM, evaluateM, every cs ih]
  | any cs ih => rw [numberFrom, evaluateM, evaluateM, some cs ih]

/-- Noting places changes no outcome. -/
theorem walk_fst (decide : α → Except ε Bool) (c : Criteria α) :
    (c.walk decide).1 = c.tryEvaluate decide :=
  outcome_numberFrom decide c 0 []

/-! ## Deciding groups -/

section Deciding

variable {m : Type → Type} [Monad m] [LawfulMonad m] (decide : α → m Bool)

theorem everyM_append (cs ds : List (Criteria α)) :
    everyM decide (cs ++ ds)
      = everyM decide cs >>= fun b => if b then everyM decide ds else pure false := by
  induction cs with
  | nil => simp [everyM]
  | cons c rest ih =>
    rw [List.cons_append, everyM, everyM, ih, bind_assoc]
    congr 1
    funext b
    cases b <;> simp

theorem someM_append (cs ds : List (Criteria α)) :
    someM decide (cs ++ ds)
      = someM decide cs >>= fun b => if b then pure true else someM decide ds := by
  induction cs with
  | nil => simp [someM]
  | cons c rest ih =>
    rw [List.cons_append, someM, someM, ih, bind_assoc]
    congr 1
    funext b
    cases b <;> simp

/-- A group of one decides like its child. -/
theorem everyM_singleton (c : Criteria α) : everyM decide [c] = evaluateM decide c := by
  have same : (fun b : Bool => if b then pure true else (pure false : m Bool)) = pure := by
    funext b
    cases b <;> rfl
  simp [everyM, same]

theorem someM_singleton (c : Criteria α) : someM decide [c] = evaluateM decide c := by
  have same : (fun b : Bool => if b then pure true else (pure false : m Bool)) = pure := by
    funext b
    cases b <;> rfl
  simp [someM, same]

omit [LawfulMonad m] in
/-- Groups decide alike if their children do. -/
theorem everyM_map_congr {check : β → m Bool} {f : Criteria α → Criteria β}
    {cs : List (Criteria α)} (h : ∀ c ∈ cs, evaluateM check (f c) = evaluateM decide c) :
    everyM check (cs.map f) = everyM decide cs := by
  induction cs with
  | nil => rfl
  | cons c rest ih =>
    rw [List.map_cons, everyM, everyM, h c (by simp), ih fun d hd => h d (by simp [hd])]

omit [LawfulMonad m] in
theorem someM_map_congr {check : β → m Bool} {f : Criteria α → Criteria β}
    {cs : List (Criteria α)} (h : ∀ c ∈ cs, evaluateM check (f c) = evaluateM decide c) :
    someM check (cs.map f) = someM decide cs := by
  induction cs with
  | nil => rfl
  | cons c rest ih =>
    rw [List.map_cons, someM, someM, h c (by simp), ih fun d hd => h d (by simp [hd])]

end Deciding

/-! ## Trees in place of leaves -/

section Grafting

variable (tree : α → Criteria β)

mutual

/-- The tree with a tree in place of each leaf. -/
def graft : Criteria α → Criteria β
  | .leaf a => tree a
  | .all children => .all (graftAll children)
  | .any children => .any (graftAll children)

def graftAll : List (Criteria α) → List (Criteria β)
  | [] => []
  | c :: rest => graft c :: graftAll rest

end

theorem graftAll_eq (cs : List (Criteria α)) : graftAll tree cs = cs.map (graft tree) := by
  induction cs with
  | nil => rfl
  | cons c rest ih => rw [graftAll, ih, List.map_cons]

/-- Leaves in place of leaves change nothing. -/
theorem graft_leaf (c : Criteria α) : graft leaf c = c := by
  have children {cs : List (Criteria α)} (ih : ∀ c ∈ cs, graft leaf c = c) :
      cs.map (graft leaf) = cs := (List.map_congr_left ih).trans (List.map_id cs)
  induction c with
  | leaf a => rw [graft]
  | all cs ih => rw [graft, graftAll_eq, children ih]
  | any cs ih => rw [graft, graftAll_eq, children ih]

theorem leaves_graft (c : Criteria α) :
    (graft tree c).leaves = c.leaves.flatMap fun a => (tree a).leaves := by
  have children {cs : List (Criteria α)}
      (ih : ∀ c ∈ cs, (graft tree c).leaves = c.leaves.flatMap fun a => (tree a).leaves) :
      (cs.map (graft tree)).flatMap leaves
        = (cs.flatMap leaves).flatMap fun a => (tree a).leaves := by
    rw [List.flatMap_map, List.flatMap_assoc]
    exact List.flatMap_congr ih
  induction c with
  | leaf a => simp [graft, leaves]
  | all cs ih => rw [graft, graftAll_eq, leaves_all, leaves_all, children ih]
  | any cs ih => rw [graft, graftAll_eq, leaves_any, leaves_any, children ih]

/-- A leaf is decided as the tree in its place. -/
theorem evaluateM_graft {m : Type → Type} [Monad m] (decide : β → m Bool) (c : Criteria α) :
    evaluateM decide (graft tree c) = evaluateM (fun a => evaluateM decide (tree a)) c := by
  induction c with
  | leaf a => simp only [graft, evaluateM]
  | all cs ih => rw [graft, graftAll_eq, evaluateM, evaluateM, everyM_map_congr _ ih]
  | any cs ih => rw [graft, graftAll_eq, evaluateM, evaluateM, someM_map_congr _ ih]

end Grafting

/-! ## Reshapings -/

/-- A change of the groups of a tree: it does not look at the leaves, keeps them in their
order, and no decision sees it, whatever else the decision does. -/
structure Reshaping where
  run : {α : Type} → Criteria α → Criteria α
  run_map : ∀ {α β : Type} (f : α → β) (c : Criteria α), run (c.map f) = (run c).map f
  leaves_run : ∀ {α : Type} (c : Criteria α), (run c).leaves = c.leaves
  evaluateM_run : ∀ {m : Type → Type} [Monad m] [LawfulMonad m] {α : Type}
    (decide : α → m Bool) (c : Criteria α), evaluateM decide (run c) = evaluateM decide c

namespace Reshaping

variable (F : Reshaping)

/-- A reshaping takes each leaf with its place along. -/
theorem run_numberFrom (n : Nat) (c : Criteria α) :
    F.run (numberFrom n c) = numberFrom n (F.run c) := by
  apply eq_of_map_eq_of_leaves_eq (f := Prod.fst)
  · rw [← F.run_map, map_fst_numberFrom, map_fst_numberFrom]
  · rw [F.leaves_run, leaves_numberFrom, leaves_numberFrom, F.leaves_run]

theorem tryEvaluate_run (decide : α → Except ε Bool) (c : Criteria α) :
    (F.run c).tryEvaluate decide = c.tryEvaluate decide :=
  F.evaluateM_run decide c

/-- The same leaves are asked about in the same order. -/
theorem walk_run (decide : α → Except ε Bool) (c : Criteria α) :
    (F.run c).walk decide = c.walk decide := by
  unfold walk
  rw [← F.run_numberFrom, F.evaluateM_run]

end Reshaping

end Permit.Criteria
