-- The groups that the text form keeps of a tree: groups of one vanish, and a group goes up
-- into one of its kind where no parentheses part them. No decision sees the change.
import Permit.Criteria.Printer
import Permit.Proofs.Walk

namespace Permit.Criteria

variable {α β : Type}

/-! ## The groups of a text -/

/-- A group, or its child if there is only one. -/
def gather (group : List (Criteria α) → Criteria α) : List (Criteria α) → Criteria α
  | [c] => c
  | cs => group cs

mutual

/-- The parts of the text of a tree: those of a chain of `and` when it stands directly inside
an `all`, and else those of a chain of `or`. -/
def parts (inAll : Bool) : Criteria α → List (Criteria α)
  | .leaf a => [.leaf a]
  | .all [] => [.all []]
  | .any [] => [.any []]
  | .all (c :: rest) =>
    let inner := parts true c ++ partsOf true rest
    if inAll then inner else [gather .all inner]
  | .any [c] => parts inAll c
  | .any (c :: rest) =>
    let inner := parts false c ++ partsOf false rest
    if inAll then [gather .any inner] else inner

def partsOf (inAll : Bool) : List (Criteria α) → List (Criteria α)
  | [] => []
  | c :: rest => parts inAll c ++ partsOf inAll rest

end

/-- A tree where a whole text is due. -/
def asText (c : Criteria α) : Criteria α := gather .any (parts false c)

/-! ## Its cases -/

theorem partsOf_eq (inAll : Bool) (cs : List (Criteria α)) :
    partsOf inAll cs = cs.flatMap (parts inAll) := by
  induction cs with
  | nil => rfl
  | cons c rest ih => rw [partsOf, ih, List.flatMap_cons]

theorem parts_leaf (inAll : Bool) (a : α) : parts inAll (.leaf a) = [.leaf a] := by rw [parts]

theorem parts_all_nil (inAll : Bool) : parts inAll (.all [] : Criteria α) = [.all []] := by
  rw [parts]

theorem parts_any_nil (inAll : Bool) : parts inAll (.any [] : Criteria α) = [.any []] := by
  rw [parts]

theorem parts_all (inAll : Bool) (c : Criteria α) (rest : List (Criteria α)) :
    parts inAll (.all (c :: rest))
      = if inAll then (c :: rest).flatMap (parts true)
        else [gather .all ((c :: rest).flatMap (parts true))] := by
  rw [parts, partsOf_eq, List.flatMap_cons]

theorem parts_any_one (inAll : Bool) (c : Criteria α) :
    parts inAll (.any [c]) = parts inAll c := by
  rw [parts]

theorem parts_any (inAll : Bool) (c d : Criteria α) (rest : List (Criteria α)) :
    parts inAll (.any (c :: d :: rest))
      = if inAll then [gather .any ((c :: d :: rest).flatMap (parts false))]
        else (c :: d :: rest).flatMap (parts false) := by
  rw [parts, partsOf_eq]
  · simp only [List.flatMap_cons]
  · intro h
    cases h

/-- What holds of leaves and empty groups, of a group of one in `any`, and of the two groups as
soon as it holds of the children, holds of each tree. -/
theorem cases_of_text {P : Criteria α → Prop} (leaf : ∀ a, P (.leaf a)) (allNil : P (.all []))
    (anyNil : P (.any []))
    (all : ∀ c rest, (∀ d ∈ c :: rest, P d) → P (.all (c :: rest)))
    (anyOne : ∀ c, P c → P (.any [c]))
    (any : ∀ c d rest, (∀ e ∈ c :: d :: rest, P e) → P (.any (c :: d :: rest)))
    (c : Criteria α) : P c := by
  induction c with
  | leaf a => exact leaf a
  | all cs ih =>
    cases cs with
    | nil => exact allNil
    | cons c rest => exact all c rest ih
  | any cs ih =>
    rcases cs with _ | ⟨c, _ | ⟨d, rest⟩⟩
    · exact anyNil
    · exact anyOne c (ih c (by simp))
    · exact any c d rest ih

/-! ## What the change keeps -/

theorem leaves_gather_all (cs : List (Criteria α)) :
    (gather .all cs).leaves = cs.flatMap leaves := by
  unfold gather
  split
  · simp
  · exact leaves_all _

theorem leaves_gather_any (cs : List (Criteria α)) :
    (gather .any cs).leaves = cs.flatMap leaves := by
  unfold gather
  split
  · simp
  · exact leaves_any _

theorem leaves_parts (c : Criteria α) :
    ∀ inAll, (parts inAll c).flatMap leaves = c.leaves := by
  have children (inAll : Bool) (cs : List (Criteria α))
      (ih : ∀ c ∈ cs, ∀ inAll, (parts inAll c).flatMap leaves = c.leaves) :
      (cs.flatMap (parts inAll)).flatMap leaves = cs.flatMap leaves := by
    rw [List.flatMap_assoc]
    exact List.flatMap_congr fun c hc => ih c hc inAll
  induction c using cases_of_text with
  | leaf a => intro inAll; rw [parts_leaf]; simp
  | allNil => intro inAll; rw [parts_all_nil]; simp
  | anyNil => intro inAll; rw [parts_any_nil]; simp
  | all c rest ih =>
    intro inAll
    have inner := children true _ ih
    rw [parts_all, leaves_all, ← inner]
    cases inAll
    · rw [if_neg (by decide), List.flatMap_singleton, leaves_gather_all]
    · rw [if_pos rfl]
  | anyOne c ih => intro inAll; rw [parts_any_one, ih, leaves_any]; simp
  | any c d rest ih =>
    intro inAll
    have inner := children false _ ih
    rw [parts_any, leaves_any, ← inner]
    cases inAll
    · rw [if_neg (by decide)]
    · rw [if_pos rfl, List.flatMap_singleton, leaves_gather_any]

theorem map_gather (f : α → β) (group : {γ : Type} → List (Criteria γ) → Criteria γ)
    (h : ∀ cs, (group cs).map f = group (cs.map (map f))) (cs : List (Criteria α)) :
    gather group (cs.map (map f)) = (gather group cs).map f := by
  rcases cs with _ | ⟨c, _ | ⟨d, rest⟩⟩
  · exact (h []).symm
  · rfl
  · exact (h (c :: d :: rest)).symm

theorem map_parts (f : α → β) (c : Criteria α) :
    ∀ inAll, parts inAll (c.map f) = (parts inAll c).map (map f) := by
  have children (inAll : Bool) (cs : List (Criteria α))
      (ih : ∀ c ∈ cs, ∀ inAll, parts inAll (c.map f) = (parts inAll c).map (map f)) :
      (cs.map (map f)).flatMap (parts inAll) = (cs.flatMap (parts inAll)).map (map f) := by
    rw [List.flatMap_map, List.map_flatMap]
    exact List.flatMap_congr fun c hc => ih c hc inAll
  induction c using cases_of_text with
  | leaf a =>
    intro inAll
    rw [map_leaf, parts_leaf, parts_leaf, List.map_singleton, map_leaf]
  | allNil =>
    intro inAll
    rw [map_all, List.map_nil, parts_all_nil, parts_all_nil, List.map_singleton, map_all,
      List.map_nil]
  | anyNil =>
    intro inAll
    rw [map_any, List.map_nil, parts_any_nil, parts_any_nil, List.map_singleton, map_any,
      List.map_nil]
  | all c rest ih =>
    intro inAll
    have inner := children true _ ih
    rw [map_all, List.map_cons, parts_all, parts_all, ← List.map_cons, inner]
    cases inAll
    · rw [if_neg (by decide), if_neg (by decide), List.map_singleton,
        map_gather f .all (map_all f)]
    · rw [if_pos rfl, if_pos rfl]
  | anyOne c ih =>
    intro inAll
    rw [map_any, List.map_singleton, parts_any_one, parts_any_one, ih]
  | any c d rest ih =>
    intro inAll
    have inner := children false _ ih
    rw [map_any, List.map_cons, List.map_cons, parts_any, parts_any, ← List.map_cons,
      ← List.map_cons, inner]
    cases inAll
    · rw [if_neg (by decide), if_neg (by decide)]
    · rw [if_pos rfl, if_pos rfl, List.map_singleton, map_gather f .any (map_any f)]

section Deciding

variable {m : Type → Type} [Monad m] [LawfulMonad m] (decide : α → m Bool)

theorem evaluateM_gather_all (cs : List (Criteria α)) :
    evaluateM decide (gather .all cs) = everyM decide cs := by
  unfold gather
  split
  · exact (everyM_singleton decide _).symm
  · rw [evaluateM]

theorem evaluateM_gather_any (cs : List (Criteria α)) :
    evaluateM decide (gather .any cs) = someM decide cs := by
  unfold gather
  split
  · exact (someM_singleton decide _).symm
  · rw [evaluateM]

theorem everyM_flatMap {f : Criteria α → List (Criteria α)} {cs : List (Criteria α)}
    (h : ∀ c ∈ cs, everyM decide (f c) = evaluateM decide c) :
    everyM decide (cs.flatMap f) = everyM decide cs := by
  induction cs with
  | nil => rfl
  | cons c rest ih =>
    rw [List.flatMap_cons, everyM_append, everyM, h c (by simp), ih fun d hd => h d (by simp [hd])]

theorem someM_flatMap {f : Criteria α → List (Criteria α)} {cs : List (Criteria α)}
    (h : ∀ c ∈ cs, someM decide (f c) = evaluateM decide c) :
    someM decide (cs.flatMap f) = someM decide cs := by
  induction cs with
  | nil => rfl
  | cons c rest ih =>
    rw [List.flatMap_cons, someM_append, someM, h c (by simp), ih fun d hd => h d (by simp [hd])]

/-- The parts of a tree inside an `all` decide together as one of its children does, and the
other parts as one of an `any`. -/
theorem decide_parts (c : Criteria α) : everyM decide (parts true c) = evaluateM decide c ∧
    someM decide (parts false c) = evaluateM decide c := by
  induction c using cases_of_text with
  | leaf a =>
    rw [parts_leaf, parts_leaf]
    exact ⟨everyM_singleton decide _, someM_singleton decide _⟩
  | allNil =>
    rw [parts_all_nil, parts_all_nil]
    exact ⟨everyM_singleton decide _, someM_singleton decide _⟩
  | anyNil =>
    rw [parts_any_nil, parts_any_nil]
    exact ⟨everyM_singleton decide _, someM_singleton decide _⟩
  | all c rest ih =>
    have inner := everyM_flatMap decide fun d hd => (ih d hd).1
    rw [parts_all, parts_all, if_pos rfl, if_neg (by decide), someM_singleton,
      evaluateM_gather_all, inner, evaluateM]
    exact ⟨rfl, rfl⟩
  | anyOne c ih => rwa [parts_any_one, parts_any_one, evaluateM, someM_singleton]
  | any c d rest ih =>
    have inner := someM_flatMap decide fun e he => (ih e he).2
    rw [parts_any, parts_any, if_pos rfl, if_neg (by decide), everyM_singleton,
      evaluateM_gather_any, inner, evaluateM]
    exact ⟨rfl, rfl⟩

end Deciding

/-- What the text form changes about a tree is its groups. -/
def flatten : Reshaping where
  run := asText
  run_map f c := by
    unfold asText
    rw [map_parts, map_gather f .any (map_any f)]
  leaves_run c := by
    unfold asText
    rw [leaves_gather_any, leaves_parts]
  evaluateM_run decide c := by
    unfold asText
    rw [evaluateM_gather_any, (decide_parts decide c).2]

/-! ## Trees that stay as they are -/

/-- No group has one child, no `all` with children stands directly inside an `all`, and no
`any` with children directly inside an `any`. -/
inductive Tidy : Criteria α → Prop
  | leaf (a : α) : Tidy (.leaf a)
  | all {cs} : cs.length ≠ 1 → (∀ c ∈ cs, Tidy c) → (∀ c ∈ cs, ∀ d ds, c ≠ .all (d :: ds)) →
      Tidy (.all cs)
  | any {cs} : cs.length ≠ 1 → (∀ c ∈ cs, Tidy c) → (∀ c ∈ cs, ∀ d ds, c ≠ .any (d :: ds)) →
      Tidy (.any cs)

theorem gather_of_length {group : List (Criteria α) → Criteria α} {cs : List (Criteria α)}
    (h : cs.length ≠ 1) : gather group cs = group cs := by
  rcases cs with _ | ⟨c, _ | ⟨d, rest⟩⟩
  · rfl
  · exact absurd rfl h
  · rfl

theorem flatMap_of_singletons {f : Criteria α → List (Criteria α)} {cs : List (Criteria α)}
    (h : ∀ c ∈ cs, f c = [c]) : cs.flatMap f = cs := by
  rw [List.flatMap_congr h, List.flatMap_singleton']

/-- A tidy tree is one part, but for a group where its own kind is due. -/
theorem Tidy.parts_eq {c : Criteria α} (tidy : Tidy c) :
    ((∀ d ds, c ≠ .all (d :: ds)) → parts true c = [c]) ∧
      ((∀ d ds, c ≠ .any (d :: ds)) → parts false c = [c]) := by
  induction tidy with
  | leaf a => exact ⟨fun _ => parts_leaf true a, fun _ => parts_leaf false a⟩
  | @all cs length _ apart ih =>
    rcases cs with _ | ⟨c, rest⟩
    · exact ⟨fun _ => parts_all_nil true, fun _ => parts_all_nil false⟩
    · have inner := flatMap_of_singletons fun d hd => (ih d hd).1 (apart d hd)
      refine ⟨fun h => absurd rfl (h c rest), fun _ => ?_⟩
      rw [parts_all, if_neg (by decide), inner, gather_of_length length]
  | @any cs length _ apart ih =>
    rcases cs with _ | ⟨c, _ | ⟨d, rest⟩⟩
    · exact ⟨fun _ => parts_any_nil true, fun _ => parts_any_nil false⟩
    · exact absurd rfl length
    · have inner := flatMap_of_singletons fun e he => (ih e he).2 (apart e he)
      refine ⟨fun _ => ?_, fun h => absurd rfl (h c (d :: rest))⟩
      rw [parts_any, if_pos rfl, inner, gather_of_length length]

theorem Tidy.asText_eq {c : Criteria α} (tidy : Tidy c) : asText c = c := by
  unfold asText
  cases tidy with
  | leaf a => rw [parts_leaf]; rfl
  | all length each apart =>
    have one := (Tidy.all length each apart).parts_eq.2 fun _ _ h => by cases h
    rw [one]
    rfl
  | @any cs length each apart =>
    rcases cs with _ | ⟨c, _ | ⟨d, rest⟩⟩
    · rw [parts_any_nil]
      rfl
    · exact absurd rfl length
    · have inner := flatMap_of_singletons fun e he => (each e he).parts_eq.2 (apart e he)
      rw [parts_any, if_neg (by decide), inner, gather_of_length length]

end Permit.Criteria
