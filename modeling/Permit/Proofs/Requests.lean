-- Requests to the owner of resources. A request is answered by the first stage that it does not
-- pass, and what is looked up counts only for the stages after that; both operations take the
-- same requests.
import Permit.Proofs.Interpreters

namespace Permit

open Json Text Criteria

variable {R Q : Type}

/-! ## The checks -/

namespace Owner

variable {m : Type → Type} {o : Owner m R Q} {resourceType : String} {c : Criteria Condition}

theorem check_other (other : resourceType ≠ o.resourceType) :
    o.check resourceType c = .error (.resourceTypeMismatch o.resourceType resourceType) := by
  rw [check, if_neg other]

theorem check_fault {e : RuleError} (same : resourceType = o.resourceType)
    (invalid : o.registry.validate c = .error e) : o.check resourceType c = .error (.rule e) := by
  rw [check, if_pos same, invalid]
  rfl

/-- What is found about a request that passed the checks once its resource was looked up. -/
def settle (o : Owner m R Q) (request : ApplyRequest) (fetched : Fetched R) :
    Except ResolutionError ApplyResponse :=
  match found request.resourceRef fetched with
  | .error e => .error e
  | .ok resource => o.satisfies request.conditions resource

section Operations

variable [Monad m]

theorem applyConditions_of_check_error {request : ApplyRequest} {e : ResolutionError}
    (refused : o.check request.resourceType request.conditions = .error e) :
    o.applyConditions request = pure (.error e) := by
  rw [applyConditions, refused]

theorem resolveFilters_of_check_error {request : ResolveRequest} {e : ResolutionError}
    (refused : o.check request.resourceType request.filters = .error e) :
    o.resolveFilters request = pure (.error e) := by
  rw [resolveFilters, refused]

variable [LawfulMonad m]

/-- A request that passed the checks has its resource looked up once. -/
theorem applyConditions_of_check {request : ApplyRequest}
    (passed : o.check request.resourceType request.conditions = .ok ()) :
    o.applyConditions request = o.settle request <$> o.fetch request.resourceRef := by
  rw [applyConditions, passed, map_eq_pure_bind]
  refine bind_congr fun fetched => ?_
  unfold settle
  cases found request.resourceRef fetched <;> rfl

/-- Filters that passed the checks are lowered, after the resource was looked up if there is a
reference. -/
theorem resolveFilters_of_check {request : ResolveRequest}
    (passed : o.check request.resourceType request.filters = .ok ()) {q : Criteria Q}
    (lowered : o.registry.toQuery request.filters = .ok q) :
    o.resolveFilters request = match request.resourceRef with
      | none => pure (.ok q)
      | some ref => (fun fetched => (found ref fetched).map fun _ => q) <$> o.fetch ref := by
  have query : o.lower request.filters = .ok q := by
    rw [lower, lowered]
    rfl
  rw [resolveFilters, passed]
  cases request.resourceRef with
  | none => exact congrArg pure query
  | some ref =>
    dsimp only
    rw [map_eq_pure_bind]
    refine bind_congr fun fetched => ?_
    rw [query]
    cases found ref fetched <;> rfl

theorem answerApply_of_read {body : List Glyph} {request : ApplyRequest}
    (decoded : ApplyRequest.decoder.ofText body = .ok request) :
    o.answerApply body
      = HttpResponse.ofResult ApplyResponse.toJson <$> o.applyConditions request := by
  rw [answerApply, readBody, decoded, map_eq_pure_bind]
  rfl

theorem answerResolve_of_read {query : Q → Value} {body : List Glyph} {request : ResolveRequest}
    (decoded : ResolveRequest.decoder.ofText body = .ok request) :
    o.answerResolve query body
      = HttpResponse.ofResult (Criteria.toJson query) <$> o.resolveFilters request := by
  rw [answerResolve, readBody, decoded, map_eq_pure_bind]
  rfl

end Operations

end Owner

/-! ## Stages -/

/-- An answer that refuses a request, with its status, its code and what it says. -/
def HttpResponse.refusal (status : Nat) (code message : String) : HttpResponse :=
  .json status (.obj [("error", .obj [("code", .str code), ("message", .str message)])])

section Stages

variable (resourceType : String) (g : Registry R Q) (body : List Glyph)

/-- The answers to bodies that are refused before a resource is looked up. A stage counts where
the stages before it were passed. -/
inductive Refused : HttpResponse → Prop
  | malformed {f : Failure} : ApplyRequest.decoder.ofText body = .error f →
      Refused (.refusal 400 "MALFORMED_CRITERIA" ("malformed criteria: " ++ f.message body))
  | otherType {request : ApplyRequest} : ApplyRequest.decoder.ofText body = .ok request →
      request.resourceType ≠ resourceType →
      Refused (.refusal 400 "RESOURCE_TYPE_MISMATCH"
        ("resource type mismatch: expected '" ++ resourceType ++ "', got '"
          ++ request.resourceType ++ "'"))
  | unknownRule {request : ApplyRequest} {k : Condition} :
      ApplyRequest.decoder.ofText body = .ok request → request.resourceType = resourceType →
      g.FirstFault request.conditions k (.unknownRule k.rule) →
      Refused (.refusal 500 "UNKNOWN_RULE" ("unknown rule '" ++ k.rule ++ "'"))
  | invalidParams {request : ApplyRequest} {k : Condition} {reason : String} :
      ApplyRequest.decoder.ofText body = .ok request → request.resourceType = resourceType →
      g.FirstFault request.conditions k (.invalidParams k.rule reason) →
      Refused (.refusal 400 "INVALID_PARAMS"
        ("invalid params for rule '" ++ k.rule ++ "': " ++ reason))

/-- The body is a request about resources of the type, and each of its conditions can be
interpreted. -/
structure Passes (request : ApplyRequest) : Prop where
  decoded : ApplyRequest.decoder.ofText body = .ok request
  sameType : request.resourceType = resourceType
  interpreted : ∀ k ∈ request.conditions.leaves, ∀ e, ¬ g.Fault k e

end Stages

/-- The answer to a request once its resource was looked up. It does not tell why that failed. -/
inductive Settled (g : Registry R Q) (request : ApplyRequest) : Fetched R → HttpResponse → Prop
  | failed (causes : List String) : Settled g request (.error causes)
      (.refusal 500 "FETCH_FAILED" "internal error while fetching the resource")
  | missing : Settled g request (.ok none)
      (.refusal 400 "RESOURCE_NOT_FOUND" ("resource '" ++ request.resourceRef ++ "' not found"))
  | decided {resource : R} {b : Bool} : g.apply request.conditions resource = .ok b →
      Settled g request (.ok (some resource)) (.json 200 (.obj [("allowed", .bool b)]))

/-- Whatever the causes are, a failure to look a resource up has one answer. -/
theorem Settled.unique_of_error {g : Registry R Q} {request : ApplyRequest}
    {causes causes' : List String} {response response' : HttpResponse}
    (h : Settled g request (.error causes) response)
    (h' : Settled g request (.error causes') response') : response = response' := by
  cases h
  cases h'
  rfl

section Answers

variable {resourceType : String} {g : Registry R Q} {body : List Glyph}

/-- A body passes, or some stage refuses it. -/
theorem refused_or_passes (resourceType : String) (body : List Glyph) (typed : g.Typed) :
    (∃ response, Refused resourceType g body response) ∨
      ∃ request, Passes resourceType g body request := by
  rcases decoded : ApplyRequest.decoder.ofText body with f | request
  · exact .inl ⟨_, .malformed decoded⟩
  · by_cases same : request.resourceType = resourceType
    · rcases valid : g.validate request.conditions with e | _
      · obtain ⟨k, first⟩ := typed.validate_eq_error_iff.1 valid
        rcases first.fault.cases_rule with rfl | ⟨reason, rfl⟩
        · exact .inl ⟨_, .unknownRule decoded same first⟩
        · exact .inl ⟨_, .invalidParams decoded same first⟩
      · exact .inr ⟨request, decoded, same, typed.validate_eq_ok_iff.1 valid⟩
    · exact .inl ⟨_, .otherType decoded same⟩

variable {m : Type → Type} {o : Owner m R Q}

theorem Passes.check {request : ApplyRequest} (typed : o.registry.Typed)
    (passes : Passes o.resourceType o.registry body request) :
    o.check request.resourceType request.conditions = .ok () :=
  (o.check_iff _ _).2 ⟨passes.sameType, typed.validate_eq_ok_iff.2 passes.interpreted⟩

/-- The answer once the resource was looked up. Conditions that were checked are decided. -/
theorem Passes.settled (o : Owner m R Q) {request : ApplyRequest} (typed : o.registry.Typed)
    (passes : Passes o.resourceType o.registry body request) (fetched : Fetched R) :
    Settled o.registry request fetched
      (HttpResponse.ofResult ApplyResponse.toJson (o.settle request fetched)) := by
  match fetched with
  | .error causes => exact .failed causes
  | .ok none => exact .missing
  | .ok (some resource) =>
    obtain ⟨b, decided⟩ :=
      Registry.apply_of_validate (typed.validate_eq_ok_iff.2 passes.interpreted) resource
    have settled : o.settle request (.ok (some resource)) = .ok ⟨b⟩ := by
      simp [Owner.settle, Owner.found, Owner.satisfies, decided, Except.mapError, Except.map]
    rw [settled]
    exact .decided decided

variable [Monad m] [LawfulMonad m]

/-- A request that does not pass the checks is answered with what is wrong. -/
theorem Owner.answerApply_of_check_error {request : ApplyRequest} {e : ResolutionError}
    (decoded : ApplyRequest.decoder.ofText body = .ok request)
    (refused : o.check request.resourceType request.conditions = .error e) :
    o.answerApply body = pure (.ofError e) := by
  rw [answerApply_of_read decoded, applyConditions_of_check_error refused, map_pure]
  rfl

theorem Refused.answer (o : Owner m R Q) {response : HttpResponse} (typed : o.registry.Typed)
    (refused : Refused o.resourceType o.registry body response) :
    o.answerApply body = pure response := by
  cases refused with
  | malformed failed =>
    rw [Owner.answerApply, Owner.readBody, failed]
    rfl
  | otherType decoded other =>
    exact Owner.answerApply_of_check_error decoded (Owner.check_other other)
  | unknownRule decoded same first =>
    exact Owner.answerApply_of_check_error decoded
      (Owner.check_fault same (typed.validate_eq_error_iff.2 ⟨_, first⟩))
  | invalidParams decoded same first =>
    exact Owner.answerApply_of_check_error decoded
      (Owner.check_fault same (typed.validate_eq_error_iff.2 ⟨_, first⟩))

theorem Passes.answer (o : Owner m R Q) {request : ApplyRequest} (typed : o.registry.Typed)
    (passes : Passes o.resourceType o.registry body request) :
    o.answerApply body = (fun fetched => HttpResponse.ofResult ApplyResponse.toJson
      (o.settle request fetched)) <$> o.fetch request.resourceRef := by
  rw [Owner.answerApply_of_read passes.decoded, Owner.applyConditions_of_check (passes.check typed),
    Functor.map_map]

end Answers

/-- The answer to a body is that of the first stage it does not pass: what it spells, the type of
resources, the conditions in their order, and then the resource, which is looked up once and only
for a request that passed so far. Only where all is well is it the decision. So the answer to a
body that is refused before is the same whatever would be found, and one that cannot be looked up
is answered in the same way whatever the causes are. -/
theorem requests_are_answered_in_stages (resourceType : String) (g : Registry R Q)
    (typed : g.Typed) (body : List Glyph) :
    ((∃ response, Refused resourceType g body response) ∨
      ∃ request, Passes resourceType g body request) ∧
    (∀ response, Refused resourceType g body response →
      ∀ (m : Type → Type) [Monad m] [LawfulMonad m] (pluginId : String)
        (fetch : String → m (Fetched R)),
        (Owner.mk pluginId resourceType g fetch).answerApply body = pure response) ∧
    (∀ request, Passes resourceType g body request → ∃ respond : Fetched R → HttpResponse,
      (∀ fetched, Settled g request fetched (respond fetched)) ∧
      ∀ (m : Type → Type) [Monad m] [LawfulMonad m] (pluginId : String)
        (fetch : String → m (Fetched R)),
        (Owner.mk pluginId resourceType g fetch).answerApply body
          = respond <$> fetch request.resourceRef) ∧
    ∀ (pluginId pluginId' : String) (fetch fetch' : String → Id (Fetched R)),
      (∀ request, ApplyRequest.decoder.ofText body = .ok request →
        (∃ causes, fetch request.resourceRef = .error causes) ∧
          ∃ causes, fetch' request.resourceRef = .error causes) →
      (Owner.mk pluginId resourceType g fetch).answerApply body
        = (Owner.mk pluginId' resourceType g fetch').answerApply body := by
  have early : ∀ response, Refused resourceType g body response →
      ∀ (m : Type → Type) [Monad m] [LawfulMonad m] (pluginId : String)
        (fetch : String → m (Fetched R)),
        (Owner.mk pluginId resourceType g fetch).answerApply body = pure response :=
    fun response refused m _ _ pluginId fetch =>
      refused.answer (.mk pluginId resourceType g fetch) typed
  have late : ∀ request, Passes resourceType g body request →
      ∃ respond : Fetched R → HttpResponse,
        (∀ fetched, Settled g request fetched (respond fetched)) ∧
        ∀ (m : Type → Type) [Monad m] [LawfulMonad m] (pluginId : String)
          (fetch : String → m (Fetched R)),
          (Owner.mk pluginId resourceType g fetch).answerApply body
            = respond <$> fetch request.resourceRef := by
    intro request passes
    -- What is found about a resource does not hang on how it was looked up.
    let settling : Owner Id R Q := ⟨"", resourceType, g, fun _ => .ok none⟩
    exact ⟨fun fetched => .ofResult ApplyResponse.toJson (settling.settle request fetched),
      fun fetched => passes.settled settling typed fetched,
      fun m _ _ pluginId fetch => passes.answer (.mk pluginId resourceType g fetch) typed⟩
  have dichotomy := refused_or_passes resourceType body typed
  refine ⟨dichotomy, early, late, fun pluginId pluginId' fetch fetch' fails => ?_⟩
  rcases dichotomy with ⟨response, refused⟩ | ⟨request, passes⟩
  · rw [early response refused, early response refused]
  · obtain ⟨respond, settled, answer⟩ := late request passes
    obtain ⟨⟨causes, failed⟩, causes', failed'⟩ := fails request passes.decoded
    have silent : respond (.error causes) = respond (.error causes') :=
      (settled (.error causes)).unique_of_error (settled (.error causes'))
    rw [answer, answer, failed, failed']
    exact silent

namespace Catalog

/-- The question about a sample that does not exist, with a rule that the catalog does not have. -/
def askingOrphans : ApplyRequest := ⟨"component:default/none", resourceType, withOrphans⟩

/-- Whoever asks with an unknown rule is told so, whatever the catalog would find. -/
theorem an_unknown_rule_is_told_first : registry.Typed ∧
    Refused resourceType registry (ofString askingOrphans.toJson.text)
      (.refusal 500 "UNKNOWN_RULE" "unknown rule 'IS_ORPHAN'") ∧
    ∀ fetch : String → Id (Fetched Entity),
      (Owner.mk pluginId resourceType registry fetch).answerApply
          (ofString askingOrphans.toJson.text)
        = .refusal 500 "UNKNOWN_RULE" "unknown rule 'IS_ORPHAN'" := by
  have integral : askingOrphans.conditions.Integral := by
    intro k hk
    have leaves : askingOrphans.conditions.leaves
        = [ownedBy ["group:default/team-a"], ⟨"IS_ORPHAN", [], rfl, by simp⟩] := rfl
    rw [leaves] at hk
    simp only [List.mem_cons, List.not_mem_nil, or_false] at hk
    rcases hk with rfl | rfl <;> simp [ownedBy]
  have shallow : askingOrphans.toJson.depth ≤ maxNesting := by decide
  have decoded := ((ApplyRequest.follows integral).ofText.1 shallow).trans
    (askingOrphans.decode_toJson .text)
  have invalid : registry.validate askingOrphans.conditions.asDocument
      = .error (.unknownRule "IS_ORPHAN") := by
    rw [Registry.validate_asDocument]
    decide
  obtain ⟨k, first⟩ := typed_registry.validate_eq_error_iff.1 invalid
  have refused : Refused resourceType registry (ofString askingOrphans.toJson.text)
      (.refusal 500 "UNKNOWN_RULE" "unknown rule 'IS_ORPHAN'") := by
    have name : k.rule = "IS_ORPHAN" := first.fault.rule_eq.symm
    rw [← name] at first
    have answer := Refused.unknownRule decoded rfl first
    rwa [name] at answer
  exact ⟨typed_registry, refused, fun fetch =>
    (requests_are_answered_in_stages resourceType registry typed_registry _).2.1 _ refused Id
      pluginId fetch⟩

end Catalog

/-! ## The two operations -/

/-- Why a request was refused, if it was. -/
def refusal? {α : Type} : Except ResolutionError α → Option ResolutionError
  | .ok _ => none
  | .error e => some e

/-- The answer, if it refuses a request. -/
def HttpResponse.refused? (response : HttpResponse) : Option HttpResponse :=
  if isSuccess response.status then none else some response

theorem refused?_ofResult {α : Type} (toJson : α → Value) (result : Except ResolutionError α) :
    (HttpResponse.ofResult toJson result).refused? = (refusal? result).map .ofError := by
  cases result with
  | ok a => rfl
  | error e =>
    have status : isSuccess (HttpResponse.ofError e).status = false := e.not_success
    simp [HttpResponse.ofResult, HttpResponse.refused?, status, refusal?]

section Operations

variable {m : Type → Type} [Monad m] [LawfulMonad m] {o : Owner m R Q}

/-- Both operations refuse the same requests about a resource, for the same reason. -/
theorem refusal?_operations (ref resourceType : String) (c : Criteria Condition) :
    refusal? <$> o.resolveFilters ⟨some ref, resourceType, c⟩
      = refusal? <$> o.applyConditions ⟨ref, resourceType, c⟩ := by
  rcases checked : o.check resourceType c with e | _
  · rw [Owner.resolveFilters_of_check_error checked, Owner.applyConditions_of_check_error checked,
      map_pure, map_pure]
    rfl
  · have valid := ((o.check_iff resourceType c).1 checked).2
    obtain ⟨q, lowered⟩ := Registry.toQuery_of_validate valid
    rw [Owner.resolveFilters_of_check checked lowered, Owner.applyConditions_of_check checked,
      Functor.map_map, Functor.map_map]
    congr 1
    funext fetched
    unfold Owner.settle
    cases Owner.found ref fetched with
    | error e => rfl
    | ok resource =>
      obtain ⟨b, decided⟩ := Registry.apply_of_validate valid resource
      simp [Owner.satisfies, decided, Except.mapError, Except.map, refusal?]

end Operations

/-- The two operations take the same requests. With a reference, each refuses what the other
refuses, for the same reason and with the same answer, and looks the same up on the way. Without
one nothing is looked up: filters are lowered exactly if they are about resources of the type and
can be interpreted, and to the tree that they are lowered to with any reference that is found. -/
theorem both_operations_take_the_same {m : Type → Type} [Monad m] [LawfulMonad m]
    (o : Owner m R Q) (resourceType : String) (c : Criteria Condition) :
    (∀ ref, refusal? <$> o.resolveFilters ⟨some ref, resourceType, c⟩
      = refusal? <$> o.applyConditions ⟨ref, resourceType, c⟩) ∧
    (∀ ref query body body',
      ResolveRequest.decoder.ofText body = .ok ⟨some ref, resourceType, c⟩ →
      ApplyRequest.decoder.ofText body' = .ok ⟨ref, resourceType, c⟩ →
      HttpResponse.refused? <$> o.answerResolve query body
        = HttpResponse.refused? <$> o.answerApply body') ∧
    ∃ result, o.resolveFilters ⟨none, resourceType, c⟩ = pure result ∧
      ((∃ q, result = .ok q) ↔
        resourceType = o.resourceType ∧ o.registry.validate c = .ok ()) ∧
      ∀ q, result = .ok q → o.registry.toQuery c = .ok q ∧
        ∀ ref, o.resolveFilters ⟨some ref, resourceType, c⟩
          = (fun fetched => (Owner.found ref fetched).map fun _ => q) <$> o.fetch ref := by
  refine ⟨fun ref => refusal?_operations ref resourceType c, ?_, ?_⟩
  · intro ref query body body' decoded decoded'
    rw [Owner.answerResolve_of_read decoded, Owner.answerApply_of_read decoded',
      Functor.map_map, Functor.map_map]
    simp only [refused?_ofResult]
    rw [← Functor.map_map refusal?, ← Functor.map_map refusal?, refusal?_operations]
  · rcases checked : o.check resourceType c with e | _
    · refine ⟨.error e, Owner.resolveFilters_of_check_error checked, ?_, fun q h => by cases h⟩
      rw [← o.check_iff, checked]
      simp
    · obtain ⟨same, valid⟩ := (o.check_iff resourceType c).1 checked
      obtain ⟨q, lowered⟩ := Registry.toQuery_of_validate valid
      refine ⟨.ok q, Owner.resolveFilters_of_check checked lowered,
        ⟨fun _ => ⟨same, valid⟩, fun _ => ⟨q, rfl⟩⟩, ?_⟩
      rintro _ ⟨⟩
      exact ⟨lowered, fun ref => Owner.resolveFilters_of_check checked lowered⟩

namespace Catalog

/-- The samples, where each reference that is looked up is noted. -/
def noting : Owner (StateM (List String)) Entity Filter :=
  ⟨pluginId, resourceType, registry, fun ref => do
    modify (· ++ [ref])
    return .ok (sample? ref)⟩

/-- Both operations miss a sample that does not exist, after one look for it. -/
theorem both_operations_miss_a_sample :
    (refusal? <$> noting.resolveFilters
      ⟨some "component:default/none", resourceType, forTeam.conditions⟩).run []
      = (some (.resourceNotFound "component:default/none"), ["component:default/none"]) := by
  rw [(both_operations_take_the_same noting resourceType forTeam.conditions).1]
  rfl

end Catalog

end Permit
