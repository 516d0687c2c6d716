-- What an answer rests on: the leaves that were asked about. An answer is the plain truth of
-- the tree whatever the skipped leaves are, and an error is that of the last leaf asked about.
import Mathlib.Data.List.Range
import Permit.Proofs.Walk

namespace Permit.Criteria

variable {α β ε : Type}

/-! ## The plain truth of a tree -/

mutual

/-- The truth of the tree when each leaf has a value: "all of" its children hold, or "any of"
them does. -/
def truth (value : α → Bool) : Criteria α → Bool
  | .leaf a => value a
  | .all children => truthOfAll value children
  | .any children => truthOfAny value children

def truthOfAll (value : α → Bool) : List (Criteria α) → Bool
  | [] => true
  | c :: rest => truth value c && truthOfAll value rest

def truthOfAny (value : α → Bool) : List (Criteria α) → Bool
  | [] => false
  | c :: rest => truth value c || truthOfAny value rest

end

section Truth

variable {value other : α → Bool}

@[simp]
theorem truth_leaf (a : α) : truth value (.leaf a) = value a := by rw [truth]

@[simp]
theorem truth_all (cs : List (Criteria α)) : truth value (.all cs) = cs.all (truth value) := by
  rw [truth]
  induction cs with
  | nil => rfl
  | cons c rest ih => rw [truthOfAll, ih, List.all_cons]

@[simp]
theorem truth_any (cs : List (Criteria α)) : truth value (.any cs) = cs.any (truth value) := by
  rw [truth]
  induction cs with
  | nil => rfl
  | cons c rest ih => rw [truthOfAny, ih, List.any_cons]

theorem truth_map (value : β → Bool) (f : α → β) (c : Criteria α) :
    (c.map f).truth value = c.truth (value ∘ f) := by
  induction c with
  | leaf a => simp [map_leaf]
  | all cs ih =>
    rw [map_all, truth_all, truth_all, List.all_map, Bool.eq_iff_iff, List.all_eq_true,
      List.all_eq_true]
    exact forall₂_congr fun d hd => by rw [Function.comp_apply, ih d hd]
  | any cs ih =>
    rw [map_any, truth_any, truth_any, List.any_map, Bool.eq_iff_iff, List.any_eq_true,
      List.any_eq_true]
    exact exists_congr fun d => and_congr_right fun hd => by rw [Function.comp_apply, ih d hd]

/-- More leaves that hold never take the truth of a tree away. -/
theorem truth_mono {c : Criteria α}
    (more : ∀ a ∈ c.leaves, value a = true → other a = true) :
    c.truth value = true → c.truth other = true := by
  induction c with
  | leaf a => simpa [leaves] using more
  | all cs ih =>
    rw [truth_all, truth_all, List.all_eq_true, List.all_eq_true]
    intro all c hc
    exact ih c hc (fun a ha => more a (mem_leaves_all hc ha)) (all c hc)
  | any cs ih =>
    rw [truth_any, truth_any, List.any_eq_true, List.any_eq_true]
    rintro ⟨c, hc, holds⟩
    exact ⟨c, hc, ih c hc (fun a ha => more a (mem_leaves_any hc ha)) holds⟩

/-- The truth of a tree hangs on its leaves alone. -/
theorem truth_congr {c : Criteria α} (same : ∀ a ∈ c.leaves, value a = other a) :
    c.truth value = c.truth other := by
  rw [Bool.eq_iff_iff]
  exact ⟨truth_mono fun a ha => by simp [same a ha], truth_mono fun a ha => by simp [same a ha]⟩

end Truth

/-! ## Decisions that never fail -/

section Total

variable {m : Type → Type} [Monad m] [LawfulMonad m] {decide : α → m Bool} {value : α → Bool}

theorem everyM_eq_all {cs : List (Criteria α)}
    (each : ∀ c ∈ cs, evaluateM decide c = pure (c.truth value)) :
    everyM decide cs = pure (cs.all (truth value)) := by
  induction cs with
  | nil => rw [everyM, List.all_nil]
  | cons c rest ih =>
    have later := ih fun d hd => each d (by simp [hd])
    rw [everyM, each c (by simp), pure_bind, later, List.all_cons]
    cases c.truth value <;> rfl

theorem someM_eq_any {cs : List (Criteria α)}
    (each : ∀ c ∈ cs, evaluateM decide c = pure (c.truth value)) :
    someM decide cs = pure (cs.any (truth value)) := by
  induction cs with
  | nil => rw [someM, List.any_nil]
  | cons c rest ih =>
    have later := ih fun d hd => each d (by simp [hd])
    rw [someM, each c (by simp), pure_bind, later, List.any_cons]
    cases c.truth value <;> rfl

/-- Where each leaf has an answer, the outcome is the plain truth. -/
theorem evaluateM_eq_truth {c : Criteria α} (answers : ∀ a ∈ c.leaves, decide a = pure (value a)) :
    evaluateM decide c = pure (c.truth value) := by
  induction c with
  | leaf a => rw [evaluateM, truth_leaf, answers a (by simp [leaves])]
  | all cs ih =>
    rw [evaluateM, truth_all]
    exact everyM_eq_all fun c hc => ih c hc fun a ha => answers a (mem_leaves_all hc ha)
  | any cs ih =>
    rw [evaluateM, truth_any]
    exact someM_eq_any fun c hc => ih c hc fun a ha => answers a (mem_leaves_any hc ha)

end Total

theorem tryEvaluate_eq_truth {decide : α → Except ε Bool} {value : α → Bool} {c : Criteria α}
    (answers : ∀ a ∈ c.leaves, decide a = .ok (value a)) :
    c.tryEvaluate decide = .ok (c.truth value) :=
  evaluateM_eq_truth answers

theorem evaluate_eq_truth (value : α → Bool) (c : Criteria α) :
    c.evaluate value = c.truth value := by
  unfold evaluate
  rw [evaluateM_eq_truth (m := Id) fun a _ => rfl]
  rfl

/-! ## What a walk asks about -/

section Asking

variable {decide : α → Except ε Bool}

/-- The other decision answers the same about each leaf in the list. -/
def Agrees (decide other : α → Except ε Bool) (asked : List (α × Nat)) : Prop :=
  ∀ x ∈ asked, other x.1 = decide x.1

/-- How a walk ends: with an answer when each leaf gave one, or with the error of the last
leaf when all before it gave one. -/
inductive Ends (decide : α → Except ε Bool) : Except ε Bool → List (α × Nat) → Prop
  | answer {b asked} : (∀ x ∈ asked, ∃ v, decide x.1 = .ok v) → Ends decide (.ok b) asked
  | error {e before last} : (∀ x ∈ before, ∃ v, decide x.1 = .ok v) →
      decide last.1 = .error e → Ends decide (.error e) (before ++ [last])

/-- A part of a walk comes to `r` after asking about some of the given leaves, from left to
right, and so it does with each decision that answers the same about those. -/
structure Asks (decide : α → Except ε Bool)
    (part : (α → Except ε Bool) → ExceptT ε (StateM (List Nat)) Bool)
    (leaves : List (α × Nat)) (r : Except ε Bool) (asked : List (α × Nat)) : Prop where
  sublist : asked.Sublist leaves
  ends : Ends decide r asked
  run : ∀ other, Agrees decide other asked → ∀ noted,
    Id.run ((part other).run.run noted) = (r, noted ++ asked.map Prod.snd)

namespace Asks

variable {part : (α → Except ε Bool) → ExceptT ε (StateM (List Nat)) Bool}
  {after : (α → Except ε Bool) → Bool → ExceptT ε (StateM (List Nat)) Bool}
  {leaves later asked more : List (α × Nat)} {r : Except ε Bool}

/-- An answer that is known needs no leaf. -/
theorem nothing (b : Bool) : Asks decide (fun _ => pure b) leaves (.ok b) [] where
  sublist := List.nil_sublist leaves
  ends := .answer (by simp)
  run _ _ noted := by
    rw [List.map_nil, List.append_nil]
    rfl

theorem leaf (a : α) (n : Nat) :
    Asks decide (fun d => noting d (a, n)) [(a, n)] (decide a) [(a, n)] where
  sublist := List.Sublist.refl _
  ends := by
    rcases h : decide a with e | b
    · rw [← List.nil_append [(a, n)]]
      exact .error (by simp) h
    · refine .answer fun x hx => ⟨b, ?_⟩
      rw [List.mem_singleton.1 hx, h]
  run other agrees noted := by
    have same : other a = decide a := agrees (a, n) (by simp)
    rw [← same]
    rfl

/-- After an answer the walk goes on. -/
theorem goOn {b : Bool} (first : Asks decide part leaves (.ok b) asked)
    (next : Asks decide (fun d => after d b) later r more) :
    Asks decide (fun d => part d >>= after d) (leaves ++ later) r (asked ++ more) where
  sublist := first.sublist.append next.sublist
  ends := by
    obtain ⟨answered⟩ := first.ends
    cases next.ends with
    | answer more => exact .answer fun x hx => (List.mem_append.1 hx).elim (answered x) (more x)
    | error more last =>
      rw [← List.append_assoc]
      exact .error (fun x hx => (List.mem_append.1 hx).elim (answered x) (more x)) last
  run other agrees noted := by
    have here := first.run other (fun x hx => agrees x (by simp [hx])) noted
    have there := next.run other (fun x hx => agrees x (by simp [hx]))
      (noted ++ asked.map Prod.snd)
    rw [ExceptT.run_bind, StateT.run_bind, Id.run_bind, here, List.map_append, ← List.append_assoc]
    exact there

/-- After an error it does not. -/
theorem stop {e : ε} (first : Asks decide part leaves (.error e) asked) :
    Asks decide (fun d => part d >>= after d) (leaves ++ later) (.error e) asked where
  sublist := first.sublist.trans (List.sublist_append_left leaves later)
  ends := first.ends
  run other agrees noted := by
    rw [ExceptT.run_bind, StateT.run_bind, Id.run_bind, first.run other agrees noted]
    rfl

/-- Either way, if it can go on after each answer. -/
theorem bind (first : ∃ r asked, Asks decide part leaves r asked)
    (next : ∀ b, ∃ r asked, Asks decide (fun d => after d b) later r asked) :
    ∃ r asked, Asks decide (fun d => part d >>= after d) (leaves ++ later) r asked := by
  obtain ⟨_ | b, asked, first⟩ := first
  · exact ⟨_, asked, first.stop⟩
  · obtain ⟨r, more, next⟩ := next b
    exact ⟨r, asked ++ more, first.goOn next⟩

end Asks

theorem exists_asks (decide : α → Except ε Bool) (c : Criteria α) :
    ∀ n, ∃ r asked,
      Asks decide (fun d => evaluateM (noting d) (numberFrom n c)) (c.leaves.zipIdx n) r asked := by
  induction c with
  | leaf a =>
    intro n
    exact ⟨decide a, [(a, n)], .leaf a n⟩
  | all cs ih =>
    simp only [numberFrom, evaluateM, leaves_all]
    induction cs with
    | nil =>
      intro n
      exact ⟨_, [], .nothing true⟩
    | cons c rest ihRest =>
      intro n
      have later := ihRest (fun d hd => ih d (by simp [hd])) (n + c.leaves.length)
      simp only [numberAllFrom, everyM, List.flatMap_cons, List.zipIdx_append]
      refine Asks.bind (ih c (by simp) n) fun b => ?_
      cases b
      · exact ⟨_, [], .nothing false⟩
      · exact later
  | any cs ih =>
    simp only [numberFrom, evaluateM, leaves_any]
    induction cs with
    | nil =>
      intro n
      exact ⟨_, [], .nothing false⟩
    | cons c rest ihRest =>
      intro n
      have later := ihRest (fun d hd => ih d (by simp [hd])) (n + c.leaves.length)
      simp only [numberAllFrom, someM, List.flatMap_cons, List.zipIdx_append]
      refine Asks.bind (ih c (by simp) n) fun b => ?_
      cases b
      · exact later
      · exact ⟨_, [], .nothing true⟩

/-- The leaves that the whole walk asks about, each with its place. -/
theorem exists_asked (decide : α → Except ε Bool) (c : Criteria α) : ∃ asked,
    asked.Sublist c.leaves.zipIdx ∧ Ends decide (c.tryEvaluate decide) asked ∧
      ∀ other, Agrees decide other asked →
        c.walk other = (c.tryEvaluate decide, asked.map Prod.snd) := by
  obtain ⟨r, asked, asks⟩ := exists_asks decide c 0
  have walks : ∀ other, Agrees decide other asked → c.walk other = (r, asked.map Prod.snd) :=
    fun other agrees => asks.run other agrees []
  have outcome : c.tryEvaluate decide = r := by
    rw [← walk_fst, walks decide fun _ _ => rfl]
  rw [outcome]
  exact ⟨asked, asks.sublist, asks.ends, walks⟩

/-- An error is that of some leaf. -/
theorem exists_leaf_of_error {c : Criteria α} {e : ε} (h : c.tryEvaluate decide = .error e) :
    ∃ a ∈ c.leaves, decide a = .error e := by
  obtain ⟨asked, sublist, ends, _⟩ := exists_asked decide c
  rw [h] at ends
  cases ends with
  | @error _ before last _ failed =>
    have place := List.mem_zipIdx_iff_getElem?.1
      (sublist.subset (by simp : last ∈ before ++ [last]))
    exact ⟨last.1, List.mem_of_getElem? place, failed⟩

end Asking

/-! ## The law of answers -/

/-- An answer is the plain truth under each valuation that goes along with what the decision
answers, whatever it says about leaves that failed or were skipped. An error is that of the
last leaf asked about, and all before it were answered. The leaves asked about come in their
order, each at most once, and nothing hangs on the others. A decision that never fails finds
the plain truth. -/
theorem answers_rest_on_leaves_asked (decide : α → Except ε Bool) (c : Criteria α) :
    (∀ b, c.tryEvaluate decide = .ok b →
      ∀ value : α → Bool, (∀ a v, decide a = .ok v → value a = v) → c.truth value = b) ∧
    (∀ e, c.tryEvaluate decide = .error e → ∃ before last,
      (c.walk decide).2 = before ++ [last] ∧
      (∃ a, c.leaves[last]? = some a ∧ decide a = .error e) ∧
      ∀ n ∈ before, ∃ a v, c.leaves[n]? = some a ∧ decide a = .ok v) ∧
    (c.walk decide).2.Sublist (List.range c.leaves.length) ∧
    (∀ other : α → Except ε Bool,
      (∀ n ∈ (c.walk decide).2, ∀ a, c.leaves[n]? = some a → other a = decide a) →
      c.tryEvaluate other = c.tryEvaluate decide ∧ (c.walk other).2 = (c.walk decide).2) ∧
    ∀ value : α → Bool, (∀ a ∈ c.leaves, decide a = .ok (value a)) →
      c.tryEvaluate decide = .ok (c.truth value) := by
  obtain ⟨asked, sublist, ends, walks⟩ := exists_asked decide c
  have visits : (c.walk decide).2 = asked.map Prod.snd := by rw [walks decide fun _ _ => rfl]
  have place : ∀ x ∈ asked, c.leaves[x.2]? = some x.1 := fun x hx =>
    List.mem_zipIdx_iff_getElem?.1 (sublist.subset hx)
  rw [visits]
  refine ⟨fun b answer value along => ?_, fun e failed => ?_, ?_, fun other same => ?_,
    fun value answers => tryEvaluate_eq_truth answers⟩
  · -- Every leaf asked about gave an answer, so the valuation is a decision that asks the same.
    rw [answer] at ends walks
    obtain ⟨answered⟩ := ends
    have total := walks (fun a => .ok (value a)) fun x hx => by
      obtain ⟨v, hv⟩ := answered x hx
      rw [hv]
      exact congrArg Except.ok (along _ _ hv)
    have outcome := congrArg Prod.fst total
    rw [walk_fst, tryEvaluate_eq_truth fun a _ => rfl] at outcome
    exact Except.ok.inj outcome
  · rw [failed] at ends
    cases ends with
    | @error _ before last answered isError =>
      refine ⟨before.map Prod.snd, last.2, by simp, ⟨last.1, place last (by simp), isError⟩, ?_⟩
      intro n hn
      obtain ⟨x, hx, rfl⟩ := List.mem_map.1 hn
      obtain ⟨v, hv⟩ := answered x hx
      exact ⟨x.1, v, place x (by simp [hx]), hv⟩
  · have places := sublist.map Prod.snd
    rwa [List.zipIdx_map_snd, ← List.range_eq_range'] at places
  · have again := walks other fun x hx =>
      same x.2 (List.mem_map.2 ⟨x, hx, rfl⟩) x.1 (place x hx)
    exact ⟨by rw [← walk_fst, again], by rw [again]⟩

end Permit.Criteria
