-- Replacing leaves by a procedure that may fail and that remembers its calls: it is called for
-- one leaf after the other, each once, and never again after the first that fails. The result has
-- the groups of the tree, and a decision about it is one about the leaves that were replaced.
import Permit.Proofs.Lowering

namespace Permit.Criteria

variable {α β γ ε σ : Type}

/-! ## The same groups -/

/-- The trees have the same groups with as many children, and leaves at the same places. -/
inductive SameShape : Criteria α → Criteria β → Prop
  | leaf (a : α) (b : β) : SameShape (.leaf a) (.leaf b)
  | all {cs ds} : List.Forall₂ SameShape cs ds → SameShape (.all cs) (.all ds)
  | any {cs ds} : List.Forall₂ SameShape cs ds → SameShape (.any cs) (.any ds)

namespace SameShape

variable {c : Criteria α} {d : Criteria β}

/-- What two trees of one shape agree on, if groups do as soon as their children do. -/
theorem induction {P : Criteria α → Criteria β → Prop} (leaf : ∀ a b, P (.leaf a) (.leaf b))
    (all : ∀ {cs ds}, List.Forall₂ P cs ds → P (.all cs) (.all ds))
    (any : ∀ {cs ds}, List.Forall₂ P cs ds → P (.any cs) (.any ds))
    (h : SameShape c d) : P c d := by
  have children {cs : List (Criteria α)} {ds : List (Criteria β)}
      (each : ∀ c ∈ cs, ∀ d, SameShape c d → P c d) (same : List.Forall₂ SameShape cs ds) :
      List.Forall₂ P cs ds := by
    induction same with
    | nil => exact .nil
    | cons first _ ih =>
      exact .cons (each _ (by simp) _ first) (ih fun c hc => each c (by simp [hc]))
  induction c generalizing d with
  | leaf a =>
    cases h with
    | leaf _ b => exact leaf a b
  | all cs ih =>
    cases h with
    | all same => exact all (children (fun c hc d => ih c hc) same)
  | any cs ih =>
    cases h with
    | any same => exact any (children (fun c hc d => ih c hc) same)

theorem depth_eq (h : SameShape c d) : d.depth = c.depth := by
  have children {cs : List (Criteria α)} {ds : List (Criteria β)}
      (each : List.Forall₂ (fun c d => d.depth = c.depth) cs ds) : depthOf ds = depthOf cs := by
    induction each with
    | nil => rfl
    | cons first _ ih => rw [depthOf, depthOf, first, ih]
  refine h.induction (P := fun c d => d.depth = c.depth) (fun _ _ => rfl) ?_ ?_
  · intro cs ds each
    rw [depth, depth, children each]
  · intro cs ds each
    rw [depth, depth, children each]

/-- With its leaves taken away nothing but the shape is left. -/
theorem map_eq (h : SameShape c d) (u : γ) : c.map (fun _ => u) = d.map fun _ => u := by
  have children {cs : List (Criteria α)} {ds : List (Criteria β)}
      (each : List.Forall₂ (fun c d => c.map (fun _ => u) = d.map fun _ => u) cs ds) :
      cs.map (map fun _ => u) = ds.map (map fun _ => u) := by
    induction each with
    | nil => rfl
    | cons first _ ih => rw [List.map_cons, List.map_cons, first, ih]
  refine h.induction (P := fun c d => c.map (fun _ => u) = d.map fun _ => u) ?_ ?_ ?_
  · intro a b
    rw [map_leaf, map_leaf]
  · intro cs ds each
    rw [map_all, map_all, children each]
  · intro cs ds each
    rw [map_any, map_any, children each]

/-- A tree is known by its leaves and a tree of its shape. -/
theorem unique {d' : Criteria β} (h : SameShape c d) (h' : SameShape c d')
    (same : d.leaves = d'.leaves) : d = d' :=
  eq_of_map_eq_of_leaves_eq ((h.map_eq ()).symm.trans (h'.map_eq ())) same

end SameShape

/-! ## Procedures with a memory -/

/-- What comes of a procedure that starts with the memory `s`, and the memory after it. -/
def runFrom (s : σ) (x : ExceptT ε (StateM σ) γ) : Except ε γ × σ := Id.run (x.run.run s)

section Running

variable {x : ExceptT ε (StateM σ) β} {f : β → ExceptT ε (StateM σ) γ} {s t : σ}

theorem runFrom_bind_ok {b : β} (h : runFrom s x = (.ok b, t)) :
    runFrom s (x >>= f) = runFrom t (f b) := by
  unfold runFrom at h ⊢
  rw [ExceptT.run_bind, StateT.run_bind, Id.run_bind, h]

theorem runFrom_bind_error {e : ε} (h : runFrom s x = (.error e, t)) :
    runFrom s (x >>= f) = (.error e, t) := by
  unfold runFrom at h ⊢
  rw [ExceptT.run_bind, StateT.run_bind, Id.run_bind, h]
  rfl

theorem runFrom_map (f : β → γ) (s : σ) :
    runFrom s (f <$> x) = ((runFrom s x).1.map f, (runFrom s x).2) := by
  rw [← bind_pure_comp]
  rcases h : runFrom s x with ⟨_ | b, t⟩
  · exact runFrom_bind_error h
  · exact runFrom_bind_ok h

end Running

/-! ## One call after the other -/

/-- The procedure is called for one item after the other, each once and each with a result, and
the memory goes from call to call. -/
inductive Calls (lower : α → ExceptT ε (StateM σ) β) : σ → List α → List β → σ → Prop
  | none {s : σ} : Calls lower s [] [] s
  | next {s t u : σ} {a b as bs} : runFrom s (lower a) = (.ok b, t) → Calls lower t as bs u →
      Calls lower s (a :: as) (b :: bs) u

section Calling

variable {lower : α → ExceptT ε (StateM σ) β} {s t : σ}

theorem runFrom_mapM_ok {as : List α} {bs : List β} :
    runFrom s (as.mapM lower) = (.ok bs, t) ↔ Calls lower s as bs t := by
  induction as generalizing s bs with
  | nil =>
    rw [List.mapM_nil]
    constructor
    · intro h
      cases h
      exact .none
    · intro h
      cases h
      rfl
  | cons a as ih =>
    rw [List.mapM_cons]
    constructor
    · intro h
      rcases first : runFrom s (lower a) with ⟨_ | b, u⟩
      · rw [runFrom_bind_error first] at h
        cases h
      · rw [runFrom_bind_ok first, bind_pure_comp, runFrom_map] at h
        rcases later : runFrom u (as.mapM lower) with ⟨_ | cs, v⟩
        · rw [later] at h
          cases h
        · rw [later] at h
          cases h
          exact .next first (ih.1 later)
    · intro h
      cases h with
      | next first later =>
        rw [runFrom_bind_ok first, bind_pure_comp, runFrom_map, ih.2 later]
        rfl

/-- The first call that fails is the last. -/
theorem runFrom_mapM_error {as : List α} {e : ε} :
    runFrom s (as.mapM lower) = (.error e, t) ↔ ∃ before a after bs u,
      as = before ++ a :: after ∧ Calls lower s before bs u ∧
        runFrom u (lower a) = (.error e, t) := by
  induction as generalizing s with
  | nil =>
    rw [List.mapM_nil]
    constructor
    · intro h
      cases h
    · rintro ⟨before, a, after, _, _, split, _⟩
      simp at split
  | cons a as ih =>
    rw [List.mapM_cons]
    rcases first : runFrom s (lower a) with ⟨e' | b, u⟩
    · rw [runFrom_bind_error first]
      constructor
      · intro h
        cases h
        exact ⟨[], a, as, [], s, rfl, .none, first⟩
      · rintro ⟨before, a', after, bs, v, split, calls, failed⟩
        cases calls with
        | none =>
          obtain ⟨rfl, rfl⟩ := List.cons.inj split
          cases first.symm.trans failed
          rfl
        | next answered _ =>
          obtain ⟨rfl, rfl⟩ := List.cons.inj split
          rw [first] at answered
          cases answered
    · rw [runFrom_bind_ok first, bind_pure_comp, runFrom_map]
      have later : ((runFrom u (as.mapM lower)).1.map (b :: ·), (runFrom u (as.mapM lower)).2)
          = (.error e, t) ↔ runFrom u (as.mapM lower) = (.error e, t) := by
        rcases runFrom u (as.mapM lower) with ⟨_ | cs, v⟩ <;> simp [Except.map]
      rw [later, ih]
      constructor
      · rintro ⟨before, a', after, bs, v, rfl, calls, failed⟩
        exact ⟨a :: before, a', after, b :: bs, v, rfl, .next first calls, failed⟩
      · rintro ⟨before, a', after, bs, v, split, calls, failed⟩
        cases calls with
        | none =>
          obtain ⟨rfl, rfl⟩ := List.cons.inj split
          rw [first] at failed
          cases failed
        | next answered calls =>
          obtain ⟨rfl, rfl⟩ := List.cons.inj split
          rw [first] at answered
          cases answered
          exact ⟨_, a', after, _, v, rfl, calls, failed⟩

end Calling

/-! ## Trees -/

section Trees

variable {lower : α → ExceptT ε (StateM σ) β} {s t : σ} {c : Criteria α} {d : Criteria β}

/-- What was made of a tree has its groups. -/
theorem sameShape_of_runFrom (h : runFrom s (c.mapM lower) = (.ok d, t)) : SameShape c d := by
  have children {cs : List (Criteria α)} {ds : List (Criteria β)} {s t : σ}
      (each : ∀ c ∈ cs, ∀ d s t, runFrom s (mapM lower c) = (.ok d, t) → SameShape c d)
      (calls : Calls (mapM lower) s cs ds t) : List.Forall₂ SameShape cs ds := by
    induction calls with
    | none => exact .nil
    | next first _ ih =>
      exact .cons (each _ (by simp) _ _ _ first) (ih fun c hc => each c (by simp [hc]))
  induction c generalizing d s t with
  | leaf a =>
    rw [mapM_leaf, runFrom_map] at h
    rcases here : runFrom s (lower a) with ⟨_ | b, u⟩
    · rw [here] at h
      cases h
    · rw [here] at h
      cases h
      exact .leaf a b
  | all cs ih =>
    rw [mapM_all, runFrom_map] at h
    rcases here : runFrom s (cs.mapM (mapM lower)) with ⟨_ | ds, u⟩
    · rw [here] at h
      cases h
    · rw [here] at h
      cases h
      exact .all (children (fun c hc d s t => ih c hc) (runFrom_mapM_ok.1 here))
  | any cs ih =>
    rw [mapM_any, runFrom_map] at h
    rcases here : runFrom s (cs.mapM (mapM lower)) with ⟨_ | ds, u⟩
    · rw [here] at h
      cases h
    · rw [here] at h
      cases h
      exact .any (children (fun c hc d s t => ih c hc) (runFrom_mapM_ok.1 here))

/-- The procedure is called for the leaves, and what comes of the tree has the leaves that come
of those. -/
theorem runFrom_leaves : runFrom s (c.leaves.mapM lower)
    = ((runFrom s (c.mapM lower)).1.map leaves, (runFrom s (c.mapM lower)).2) := by
  rw [← leaves_mapM, runFrom_map]

theorem runFrom_mapM_eq_ok :
    runFrom s (c.mapM lower) = (.ok d, t) ↔ SameShape c d ∧ Calls lower s c.leaves d.leaves t := by
  constructor
  · intro h
    refine ⟨sameShape_of_runFrom h, runFrom_mapM_ok.1 ?_⟩
    rw [runFrom_leaves, h]
    rfl
  · rintro ⟨shape, calls⟩
    have made := runFrom_mapM_ok.2 calls
    rw [runFrom_leaves] at made
    rcases h : runFrom s (c.mapM lower) with ⟨_ | d', u⟩
    · rw [h] at made
      cases made
    · rw [h] at made
      obtain ⟨same, rfl⟩ := Prod.mk.inj made
      rw [shape.unique (sameShape_of_runFrom h) (Except.ok.inj same).symm]

theorem runFrom_mapM_eq_error {e : ε} :
    runFrom s (c.mapM lower) = (.error e, t) ↔ ∃ before a after bs u,
      c.leaves = before ++ a :: after ∧ Calls lower s before bs u ∧
        runFrom u (lower a) = (.error e, t) := by
  rw [← runFrom_mapM_error, runFrom_leaves]
  rcases runFrom s (c.mapM lower) with ⟨_ | d, u⟩ <;> simp [Except.map]

end Trees

/-! ## Procedures without a memory -/

/-- A procedure that remembers nothing. -/
def forgetting (lower : α → Except ε β) (a : α) : ExceptT ε (StateM σ) β :=
  ExceptT.mk (pure (lower a))

theorem runFrom_forgetting (lower : α → Except ε β) (c : Criteria α) (s : σ) :
    runFrom s (c.mapM (forgetting lower)) = (c.tryMap lower, s) := by
  have children {cs : List (Criteria α)} (each : ∀ c ∈ cs, ∀ s : σ,
      runFrom s (c.mapM (forgetting lower)) = (c.tryMap lower, s)) (s : σ) :
      runFrom s (cs.mapM (mapM (forgetting lower))) = (cs.mapM (tryMap lower), s) := by
    induction cs generalizing s with
    | nil => rfl
    | cons c rest ih =>
      have first := each c (by simp) s
      rw [List.mapM_cons, List.mapM_cons]
      rcases here : c.tryMap lower with e | d
      · rw [here] at first
        rw [runFrom_bind_error first]
        rfl
      · rw [here] at first
        rw [runFrom_bind_ok first, bind_pure_comp, runFrom_map,
          ih fun d hd => each d (by simp [hd])]
        cases rest.mapM (tryMap lower) <;> rfl
  induction c generalizing s with
  | leaf a =>
    rw [tryMap, mapM_leaf, mapM_leaf, runFrom_map]
    rfl
  | all cs ih =>
    rw [tryMap, mapM_all, mapM_all, runFrom_map, children ih]
    rfl
  | any cs ih =>
    rw [tryMap, mapM_any, mapM_any, runFrom_map, children ih]
    rfl

/-! ## Places -/

/-- Each leaf is replaced at its place. -/
theorem numberFrom_map (f : α → β) (n : Nat) (c : Criteria α) :
    numberFrom n (c.map f) = (numberFrom n c).map fun x => (f x.1, x.2) := by
  apply eq_of_map_eq_of_leaves_eq (f := Prod.fst)
  · have places : (numberFrom n c).map (f ∘ Prod.fst) = c.map f := by
      rw [← map_map, map_fst_numberFrom]
    rw [map_fst_numberFrom, map_map]
    exact places.symm
  · rw [leaves_numberFrom, leaves_map, leaves_map, leaves_numberFrom, List.zipIdx_map]
    rfl

/-- A decision asks about replaced leaves at the places of the leaves. -/
theorem walk_map (decide : β → Except ε Bool) (f : α → β) (c : Criteria α) :
    (c.map f).walk decide = c.walk (decide ∘ f) := by
  unfold walk
  rw [numberFrom_map, evaluateM_map]
  rfl

/-! ## The law of replacing -/

/-- A tree is replaced leaf by leaf from the left, each leaf once. The first leaf that fails ends
it with its error and with what is remembered by then; if none fails, the result is the tree of
the same shape, and so of the same depth, whose leaves are what came of the leaves. To replace
twice is to replace once by both, and to decide about replaced leaves is to decide about the
leaves, with the same of them asked about. -/
theorem mapping_keeps_the_tree (lower : α → ExceptT ε (StateM σ) β) (s : σ) (c : Criteria α) :
    (∀ e t, runFrom s (c.mapM lower) = (.error e, t) ↔ ∃ before a after bs u,
      c.leaves = before ++ a :: after ∧ Calls lower s before bs u ∧
        runFrom u (lower a) = (.error e, t)) ∧
    (∀ d t, runFrom s (c.mapM lower) = (.ok d, t) ↔
      SameShape c d ∧ Calls lower s c.leaves d.leaves t) ∧
    (∀ d : Criteria β, SameShape c d → d.depth = c.depth) ∧
    (∀ answer : α → Except ε β,
      runFrom s (c.mapM (forgetting answer)) = (c.tryMap answer, s)) ∧
    (∀ f : α → β, c.tryMap (fun a => (.ok (f a) : Except ε β)) = .ok (c.map f)) ∧
    (∀ (f : α → β) (g : β → γ), (c.map f).map g = c.map (g ∘ f)) ∧
    ∀ (f : α → β) (decide : β → Except ε Bool),
      (c.map f).tryEvaluate decide = c.tryEvaluate (decide ∘ f) ∧
      (c.map f).walk decide = c.walk (decide ∘ f) :=
  ⟨fun _ _ => runFrom_mapM_eq_error, fun _ _ => runFrom_mapM_eq_ok, fun _ => SameShape.depth_eq,
    fun answer => runFrom_forgetting answer c s, fun _ => mapM_eq_map fun _ _ => rfl,
    fun f g => map_map g f c, fun f decide => ⟨evaluateM_map decide f c, walk_map decide f c⟩⟩

end Permit.Criteria
