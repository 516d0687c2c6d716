-- What a search of the catalog finds is what its rules allow. Kinds are compared in any case by
-- their rule and in lower case by the search, so the search may miss an entity whose kind has
-- capital letters, and finds no other than those that are allowed.
import Permit.Proofs.Extending
import Permit.Proofs.Letters

namespace Permit.Catalog

open Criteria Json Text

/-! ## The search -/

/-- The field of an entity that the search knows by the key. -/
def Entity.field? (e : Entity) (key : String) : Option String :=
  if key = "kind" then some e.kind
  else if key = "spec.type" then e.componentType
  else if key = "relations.ownedBy" then e.owner
  else none

/-- Whether the entity has an annotation of that name. -/
def Entity.hasAnnotation (e : Entity) (name : String) : Bool :=
  (e.annotations.map Prod.fst).contains name

/-- Whether the search finds the entity by the filter: the values have its field among them, or
it has the annotation whose name follows the key of all annotations. -/
def Filter.finds (e : Entity) : Filter → Bool
  | .isIn key values => (e.field? key).any values.contains
  | .exists key => (key.toList.dropPrefix? "metadata.annotations.".toList).any fun name =>
      e.hasAnnotation (String.ofList name)

/-! ## Each rule -/

/-- The search by kinds finds what the rule holds for, as long as it is in lower case. -/
theorem finds_isEntityKind (kinds : List String) (e : Entity) :
    (isEntityKind.query kinds).finds e
      = (isEntityKind.holds kinds e && e.kind.toLower == e.kind) := by
  have field : e.field? "kind" = some e.kind := rfl
  simp only [isEntityKind, Filter.finds, field, Option.any_some, sameUpToCase]
  rw [Bool.eq_iff_iff]
  simp only [List.contains_iff_mem, List.mem_map, Bool.and_eq_true, List.any_eq_true, beq_iff_eq]
  constructor
  · rintro ⟨kind, given, same⟩
    have small : e.kind.toLower = e.kind := by rw [← same, toLower_toLower]
    exact ⟨⟨kind, given, by rw [small, same]⟩, small⟩
  · rintro ⟨⟨kind, given, same⟩, small⟩
    exact ⟨kind, given, by rw [same, small]⟩

theorem finds_isComponentType (types : List String) (e : Entity) :
    (isComponentType.query types).finds e = isComponentType.holds types e := by
  have field : e.field? "spec.type" = e.componentType := rfl
  simp only [isComponentType, Filter.finds, field]

theorem finds_isOwner (claims : List String) (e : Entity) :
    (isOwner.query claims).finds e = isOwner.holds claims e := by
  have field : e.field? "relations.ownedBy" = e.owner := rfl
  simp only [isOwner, Filter.finds, field]

theorem finds_isAnnotated (name : String) (e : Entity) :
    (isAnnotated.query name).finds e = isAnnotated.holds name e := by
  have rest : ("metadata.annotations." ++ name).toList.dropPrefix? "metadata.annotations.".toList
      = some name.toList := by
    rw [String.toList_append]
    exact List.dropPrefix?_append_of_beq _ (by simp)
  simp only [isAnnotated, Filter.finds, rest, Option.any_some, String.ofList_toList,
    Entity.hasAnnotation]

/-! ## All rules -/

/-- What the fragment of a meaning finds is allowed by it, and the other way round for an entity
whose kind is in lower case. -/
structure Searched (m : Meaning Entity Filter) : Prop where
  allowed : ∀ e, m.query.finds e = true → m.holds e = true
  found : ∀ e : Entity, e.kind.toLower = e.kind → m.query.finds e = m.holds e

theorem searched_of_eq {m : Meaning Entity Filter} (same : ∀ e, m.query.finds e = m.holds e) :
    Searched m where
  allowed e finds := same e ▸ finds
  found e _ := same e

theorem searched_isEntityKind (kinds : List String) :
    Searched ⟨isEntityKind.holds kinds, isEntityKind.query kinds⟩ where
  allowed e finds := by
    rw [finds_isEntityKind, Bool.and_eq_true] at finds
    exact finds.1
  found e small := by rw [finds_isEntityKind, small, beq_self_eq_true, Bool.and_true]

/-- Each meaning that the rule has is searched rightly. -/
def Searchable (rule : Rule Entity Filter) : Prop :=
  ∀ params m, rule.meaning params = .ok m → Searched m

theorem searchable_erase {P : Type} {rule : TypedRule P Entity Filter}
    (each : ∀ p, Searched ⟨rule.holds p, rule.query p⟩) : Searchable rule.erase := by
  intro params m h
  unfold TypedRule.erase TypedRule.meaning at h
  rcases decoded : decodeParams rule.params params with f | p
  · simp only [decoded] at h
    cases h
  · simp only [decoded] at h
    cases h
    exact each p

theorem searchable_rules : ∀ rule ∈ rules ++ [isAnnotated.erase], Searchable rule := by
  intro rule hr
  simp only [rules, List.cons_append, List.nil_append, List.mem_cons, List.not_mem_nil,
    or_false] at hr
  rcases hr with rfl | rfl | rfl | rfl
  · exact searchable_erase searched_isEntityKind
  · exact searchable_erase fun types => searched_of_eq (finds_isComponentType types)
  · exact searchable_erase fun claims => searched_of_eq (finds_isOwner claims)
  · exact searchable_erase fun name => searched_of_eq (finds_isAnnotated name)

theorem searchable_registry : ∀ rule ∈ registry.rules, Searchable rule := by
  unfold registry
  split
  · next extended =>
    exact Registry.forall_of_extend (fun _ known => by cases known)
      (fun rule hr => searchable_rules rule (List.mem_append_left _ hr)) extended
  · intro _ known
    cases known

theorem searchable_extendedRegistry : ∀ rule ∈ extendedRegistry.rules, Searchable rule := by
  unfold extendedRegistry
  split
  · next extended =>
    exact Registry.forall_of_extend searchable_registry
      (fun rule hr => searchable_rules rule (List.mem_append_right _ hr)) extended
  · exact searchable_registry

theorem searched_of_meaning {k : Condition} {m : Meaning Entity Filter}
    (h : extendedRegistry.meaning k = .ok m) : Searched m := by
  obtain ⟨rule, known, _, meaning⟩ := Registry.exists_rule_of_meaning h
  exact searchable_extendedRegistry rule known _ m meaning

/-! ## Whole trees -/

/-- Valid criteria have a query. What the search finds by it they allow, and for an entity whose
kind has no capital letters they allow exactly what it finds, in whatever case the kinds of the
conditions are written. -/
theorem a_search_finds_what_is_allowed (c : Criteria Condition)
    (valid : extendedRegistry.validate c = .ok ()) :
    ∃ q, extendedRegistry.toQuery c = .ok q ∧ ∀ e : Entity,
      (q.evaluate (Filter.finds e) = true → extendedRegistry.apply c e = .ok true) ∧
      ((∀ letter ∈ e.kind.toList, letter.isUpper = false) →
        extendedRegistry.apply c e = .ok (q.evaluate (Filter.finds e))) := by
  obtain ⟨pairs, interprets⟩ := Registry.exists_interprets valid
  have searched : ∀ x ∈ pairs.leaves, Searched x.2 :=
    fun x hx => searched_of_meaning (interprets.meanings x hx)
  refine ⟨_, interprets.toQuery, fun e => ⟨fun finds => ?_, fun small => ?_⟩⟩
  · rw [evaluate_eq_truth, truth_map] at finds
    rw [interprets.apply]
    exact congrArg _ (truth_mono (fun x hx => (searched x hx).allowed e) finds)
  · rw [evaluate_eq_truth, truth_map, interprets.apply]
    exact congrArg _ (truth_congr fun x hx =>
      ((searched x hx).found e (toLower_of_forall small)).symm)

/-- A condition on the kind, written in capital letters. -/
def ofComponents : Condition :=
  ⟨"IS_ENTITY_KIND", [.arr [.str "COMPONENT"]], rfl,
    by simp [Value.Canonical, Value.CanonicalItems]⟩

theorem isReserved_annotation : isReserved "HAS_ANNOTATION" = false := rfl

theorem canonical_reference : ∀ v ∈ [Value.str "backstage.io/techdocs-ref"], v.Canonical := by
  simp [Value.Canonical]

/-- A condition on an annotation. -/
def withReference : Condition := ⟨_, _, isReserved_annotation, canonical_reference⟩

/-- Both conditions, each with its meaning. -/
def documented : Criteria (Condition × Meaning Entity Filter) :=
  .all [.leaf (ofComponents, ⟨isEntityKind.holds ["COMPONENT"], isEntityKind.query ["COMPONENT"]⟩),
    .any [.leaf (withReference, ⟨isAnnotated.holds "backstage.io/techdocs-ref",
      isAnnotated.query "backstage.io/techdocs-ref"⟩)]]

theorem interprets_documented :
    extendedRegistry.Interprets documented (documented.map Prod.fst) where
  conditions := rfl
  meanings x hx := by
    have leaves : documented.leaves = [_, _] := rfl
    rw [leaves] at hx
    simp only [List.mem_cons, List.not_mem_nil, or_false] at hx
    rcases hx with rfl | rfl <;> rfl

/-- A documented entity of the kind. -/
def documentedAs (kind : String) : Entity :=
  { kind, name := "service-a", annotations := [("backstage.io/techdocs-ref", "dir:.")] }

theorem kind_documentedAs (kind : String) : (documentedAs kind).kind = kind := rfl

theorem annotated_documentedAs (kind : String) :
    isAnnotated.holds "backstage.io/techdocs-ref" (documentedAs kind) = true := by
  simp [isAnnotated, documentedAs]

theorem component_documentedAs {kind : String} (same : kind.toLower = "component") :
    isEntityKind.holds ["COMPONENT"] (documentedAs kind) = true := by
  have given : "COMPONENT".toLower = "component" := by simp [String.toLower, ← String.toList_inj]
  simp [isEntityKind, sameUpToCase, kind_documentedAs, given, same]

/-- The search for documented components finds one. It misses the same with a capital letter in
its kind, though the criteria allow that too. -/
theorem a_capital_letter_is_not_found :
    extendedRegistry.validate (documented.map Prod.fst) = .ok () ∧
    ∃ q, extendedRegistry.toQuery (documented.map Prod.fst) = .ok q ∧
      (q.evaluate (Filter.finds (documentedAs "component")) = true ∧
        extendedRegistry.apply (documented.map Prod.fst) (documentedAs "component") = .ok true) ∧
      q.evaluate (Filter.finds (documentedAs "Component")) = false ∧
      extendedRegistry.apply (documented.map Prod.fst) (documentedAs "Component") = .ok true := by
  have valid := Registry.validate_of_toQuery interprets_documented.toQuery
  have small : "component".toLower = "component" := by simp [String.toLower, ← String.toList_inj]
  have capital : "Component".toLower = "component" := by
    simp [String.toLower, ← String.toList_inj]
  obtain ⟨q, lowered, agrees⟩ := a_search_finds_what_is_allowed _ valid
  obtain rfl := Except.ok.inj (interprets_documented.toQuery.symm.trans lowered)
  have finds : evaluate (Filter.finds (documentedAs "component"))
      (documented.map fun x => x.2.query) = true := by
    simp [evaluate_eq_truth, truth_map, documented, finds_isEntityKind, finds_isAnnotated,
      component_documentedAs small, annotated_documentedAs, kind_documentedAs, small]
  have misses : evaluate (Filter.finds (documentedAs "Component"))
      (documented.map fun x => x.2.query) = false := by
    simp [evaluate_eq_truth, truth_map, documented, finds_isEntityKind, kind_documentedAs, capital]
  refine ⟨valid, _, lowered, ⟨finds, (agrees _).1 finds⟩, misses, ?_⟩
  rw [interprets_documented.apply]
  simp [documented, component_documentedAs capital, annotated_documentedAs]

end Permit.Catalog
