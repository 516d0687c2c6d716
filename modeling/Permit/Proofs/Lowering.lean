-- Replacing the leaves of a tree one by one: it goes through the leaves from left to right,
-- stops at the first that has no replacement, and leaves the groups as they are.
import Mathlib.Control.Basic
import Permit.Proofs.Walk

namespace Permit.Criteria

variable {α β γ ε : Type}

/-! ## Leaves in any monad -/

section Monads

variable {m : Type → Type} [Monad m] [LawfulMonad m] {lower : α → m β}

theorem mapAllM_eq (cs : List (Criteria α)) : mapAllM lower cs = cs.mapM (mapM lower) := by
  induction cs with
  | nil => rw [mapAllM, List.mapM_nil]
  | cons c rest ih => rw [mapAllM, ih, List.mapM_cons]

theorem mapM_leaf (a : α) : mapM lower (.leaf a) = leaf <$> lower a := by
  rw [mapM, bind_pure_comp]

theorem mapM_all (cs : List (Criteria α)) :
    mapM lower (.all cs) = all <$> cs.mapM (mapM lower) := by
  rw [mapM, mapAllM_eq, bind_pure_comp]

theorem mapM_any (cs : List (Criteria α)) :
    mapM lower (.any cs) = any <$> cs.mapM (mapM lower) := by
  rw [mapM, mapAllM_eq, bind_pure_comp]

/-- The leaves of a tree are replaced as their list is. -/
theorem leaves_mapM (c : Criteria α) : leaves <$> mapM lower c = c.leaves.mapM lower := by
  have children (cs : List (Criteria α))
      (ih : ∀ c ∈ cs, leaves <$> mapM lower c = c.leaves.mapM lower) :
      (List.flatMap leaves) <$> cs.mapM (mapM lower) = (cs.flatMap leaves).mapM lower := by
    induction cs with
    | nil => simp
    | cons c rest ihRest =>
      rw [List.flatMap_cons, List.mapM_append, ← ih c (by simp),
        ← ihRest fun d hd => ih d (by simp [hd])]
      simp [List.mapM_cons]
  induction c with
  | leaf a => simp [mapM_leaf, leaves]
  | all cs ih =>
    rw [mapM_all, leaves_all, ← children cs ih]
    simp [leaves_all]
  | any cs ih =>
    rw [mapM_any, leaves_any, ← children cs ih]
    simp [leaves_any]

/-- Where each leaf has a replacement, the tree is the one with all of them. -/
theorem mapM_eq_map {f : α → β} {c : Criteria α} (found : ∀ a ∈ c.leaves, lower a = pure (f a)) :
    mapM lower c = pure (c.map f) := by
  have children (cs : List (Criteria α)) (each : ∀ c ∈ cs, mapM lower c = pure (c.map f)) :
      cs.mapM (mapM lower) = pure (cs.map (map f)) := by
    induction cs with
    | nil => simp
    | cons c rest ih => simp [each c (by simp), ih fun d hd => each d (by simp [hd])]
  induction c with
  | leaf a => rw [mapM_leaf, map_leaf, found a (by simp [leaves]), map_pure]
  | all cs ih =>
    rw [mapM_all, map_all, children cs fun c hc => ih c hc fun a ha => found a
      (mem_leaves_all hc ha), map_pure]
  | any cs ih =>
    rw [mapM_any, map_any, children cs fun c hc => ih c hc fun a ha => found a
      (mem_leaves_any hc ha), map_pure]

/-- Replacing leaves twice is replacing them once. -/
theorem mapM_map (lower : β → m γ) (f : α → β) (c : Criteria α) :
    mapM lower (c.map f) = mapM (lower ∘ f) c := by
  have children (cs : List (Criteria α))
      (ih : ∀ c ∈ cs, mapM lower (c.map f) = mapM (lower ∘ f) c) :
      (cs.map (map f)).mapM (mapM lower) = cs.mapM (mapM (lower ∘ f)) := by
    induction cs with
    | nil => simp
    | cons c rest ihRest => simp [ih c (by simp), ihRest fun d hd => ih d (by simp [hd])]
  induction c with
  | leaf a => rw [map_leaf, mapM_leaf, mapM_leaf, Function.comp_apply]
  | all cs ih => rw [map_all, mapM_all, mapM_all, children cs ih]
  | any cs ih => rw [map_any, mapM_any, mapM_any, children cs ih]

theorem map_map (h : β → γ) (f : α → β) (c : Criteria α) : (c.map f).map h = c.map (h ∘ f) :=
  mapM_map (m := Id) (fun b => pure (h b)) f c

theorem map_eq_self {f : α → α} {c : Criteria α} (same : ∀ a ∈ c.leaves, f a = a) :
    c.map f = c := by
  refine eq_of_map_eq_of_leaves_eq (f := fun _ => ()) ?_ ?_
  · rw [map_map]
  · rw [leaves_map, List.map_congr_left same, List.map_id']

omit [LawfulMonad m] in
/-- A decision about replaced leaves is one about the leaves. -/
theorem evaluateM_map (decide : β → m Bool) (f : α → β) (c : Criteria α) :
    evaluateM decide (c.map f) = evaluateM (decide ∘ f) c := by
  induction c with
  | leaf a => rw [map_leaf, evaluateM, evaluateM, Function.comp_apply]
  | all cs ih =>
    rw [map_all, evaluateM, evaluateM]
    induction cs with
    | nil => rfl
    | cons c rest ihRest =>
      rw [List.map_cons, everyM, everyM, ih c (by simp), ihRest fun d hd => ih d (by simp [hd])]
  | any cs ih =>
    rw [map_any, evaluateM, evaluateM]
    induction cs with
    | nil => rfl
    | cons c rest ihRest =>
      rw [List.map_cons, someM, someM, ih c (by simp), ihRest fun d hd => ih d (by simp [hd])]

end Monads

/-! ## The first failure -/

/-- The error of the first item that has one. -/
def FirstError (f : α → Except ε β) (items : List α) (e : ε) : Prop :=
  ∃ before a after, items = before ++ a :: after ∧ (∀ b ∈ before, ∃ x, f b = .ok x) ∧
    f a = .error e

theorem firstError_cons_ok {f : α → Except ε β} {a : α} {rest : List α} {e : ε} {b : β}
    (first : f a = .ok b) : FirstError f (a :: rest) e ↔ FirstError f rest e := by
  constructor
  · rintro ⟨before, x, after, split, answered, failed⟩
    cases before with
    | nil =>
      obtain ⟨rfl, rfl⟩ := List.cons.inj split
      rw [first] at failed
      cases failed
    | cons y before =>
      obtain ⟨rfl, rfl⟩ := List.cons.inj split
      exact ⟨before, x, after, rfl, fun z hz => answered z (by simp [hz]), failed⟩
  · rintro ⟨before, x, after, rfl, answered, failed⟩
    refine ⟨a :: before, x, after, rfl, fun z hz => ?_, failed⟩
    rcases List.mem_cons.1 hz with rfl | hz
    · exact ⟨b, first⟩
    · exact answered z hz

theorem firstError_cons_error {f : α → Except ε β} {a : α} {rest : List α} {e e' : ε}
    (first : f a = .error e) : FirstError f (a :: rest) e' ↔ e' = e := by
  constructor
  · rintro ⟨before, x, after, split, answered, failed⟩
    cases before with
    | nil =>
      obtain ⟨rfl, rfl⟩ := List.cons.inj split
      rw [first] at failed
      exact (Except.error.inj failed).symm
    | cons y before =>
      obtain ⟨rfl, rfl⟩ := List.cons.inj split
      obtain ⟨b, answer⟩ := answered a (by simp)
      rw [first] at answer
      cases answer
  · rintro rfl
    exact ⟨[], a, rest, rfl, by simp, first⟩

/-- A change of the results changes no error. -/
theorem firstError_map {f : α → Except ε β} {h : β → γ} {items : List α} {e : ε} :
    FirstError (fun a => (f a).map h) items e ↔ FirstError f items e := by
  have result (a : α) : (∃ x, (f a).map h = .ok x) ↔ ∃ x, f a = .ok x := by
    cases f a <;> simp [Except.map]
  have error (a : α) : (f a).map h = .error e ↔ f a = .error e := by
    cases f a <;> simp [Except.map]
  simp only [FirstError, result, error]

/-- Either each item has a result, or some item has the first error. -/
theorem results_or_firstError (f : α → Except ε β) (items : List α) :
    (∀ a ∈ items, ∃ b, f a = .ok b) ∨ ∃ e, FirstError f items e := by
  induction items with
  | nil => simp
  | cons a rest ih =>
    rcases first : f a with e | b
    · exact .inr ⟨e, (firstError_cons_error first).2 rfl⟩
    · rcases ih with answered | ⟨e, failed⟩
      · refine .inl fun x hx => ?_
        rcases List.mem_cons.1 hx with rfl | hx
        · exact ⟨b, first⟩
        · exact answered x hx
      · exact .inr ⟨e, (firstError_cons_ok first).2 failed⟩

theorem mapM_eq_error_iff {f : α → Except ε β} {items : List α} {e : ε} :
    items.mapM f = .error e ↔ FirstError f items e := by
  induction items with
  | nil => simp [FirstError, pure, Except.pure]
  | cons a rest ih =>
    rw [List.mapM_cons]
    rcases first : f a with e' | b
    · rw [firstError_cons_error first]
      exact ⟨fun h => (Except.error.inj h).symm, fun h => h ▸ rfl⟩
    · rw [firstError_cons_ok first, ← ih]
      rcases rest.mapM f with e' | bs
      · exact ⟨fun h => congrArg _ (Except.error.inj h), fun h => congrArg _ (Except.error.inj h)⟩
      · constructor <;> (intro h; cases h)

/-- A change of the result leaves errors as they are. -/
theorem map_eq_error_iff {x : Except ε α} {f : α → β} {e : ε} :
    f <$> x = .error e ↔ x = .error e := by
  cases x with
  | error e' => simp [Functor.map, Except.map]
  | ok a => simp [Functor.map, Except.map]

/-- A tree has no lowering exactly if a leaf has none, and fails with the first such. -/
theorem tryMap_eq_error_iff {lower : α → Except ε β} {c : Criteria α} {e : ε} :
    c.tryMap lower = .error e ↔ FirstError lower c.leaves e := by
  rw [← mapM_eq_error_iff, ← leaves_mapM, map_eq_error_iff]
  rfl

/-! ## Two trees of one shape -/

/-- Where each leaf is related to something, there is one tree of such pairs. -/
theorem exists_pairs {related : α → β → Prop} {c : Criteria α}
    (each : ∀ a ∈ c.leaves, ∃ b, related a b) :
    ∃ pairs : Criteria (α × β), pairs.map Prod.fst = c ∧
      ∀ x ∈ pairs.leaves, related x.1 x.2 := by
  have children (cs : List (Criteria α))
      (ih : ∀ c ∈ cs, ∃ pairs : Criteria (α × β), pairs.map Prod.fst = c ∧
        ∀ x ∈ pairs.leaves, related x.1 x.2) :
      ∃ all : List (Criteria (α × β)), all.map (map Prod.fst) = cs ∧
        ∀ x ∈ all.flatMap leaves, related x.1 x.2 := by
    induction cs with
    | nil => exact ⟨[], rfl, by simp⟩
    | cons c rest ihRest =>
      obtain ⟨pairs, rfl, here⟩ := ih c (by simp)
      obtain ⟨all, rfl, there⟩ := ihRest fun d hd => ih d (by simp [hd])
      refine ⟨pairs :: all, rfl, fun x hx => ?_⟩
      rw [List.flatMap_cons] at hx
      exact (List.mem_append.1 hx).elim (here x) (there x)
  induction c with
  | leaf a =>
    obtain ⟨b, rel⟩ := each a (by simp [leaves])
    exact ⟨.leaf (a, b), map_leaf _ _, by simpa [leaves] using rel⟩
  | all cs ih =>
    obtain ⟨pairs, rfl, rel⟩ := children cs fun c hc => ih c hc fun a ha =>
      each a (mem_leaves_all hc ha)
    exact ⟨.all pairs, map_all _ _, by rwa [leaves_all]⟩
  | any cs ih =>
    obtain ⟨pairs, rfl, rel⟩ := children cs fun c hc => ih c hc fun a ha =>
      each a (mem_leaves_any hc ha)
    exact ⟨.any pairs, map_any _ _, by rwa [leaves_any]⟩

end Permit.Criteria
