-- The side that owns resources: it answers whether a resource satisfies conditions, and
-- which query they stand for. A request is checked in a fixed order, and the first thing
-- that is wrong is the answer.
import Permit.Resolution.Message

namespace Permit

variable {m : Type → Type} {R Q : Type}

/-! ## Errors -/

/-- Why a request gets no decision. What made fetching fail is told from the outside in. -/
inductive ResolutionError where
  | resourceTypeMismatch (expected actual : String)
  | resourceNotFound (ref : String)
  | malformedCriteria (reason : String)
  | rule (e : RuleError)
  | fetchFailed (causes : List String)
deriving DecidableEq, Repr

namespace ResolutionError

/-- What is said about the error inside the service. -/
def message : ResolutionError → String
  | .resourceTypeMismatch expected actual =>
    "resource type mismatch: expected '" ++ expected ++ "', got '" ++ actual ++ "'"
  | .resourceNotFound ref => "resource '" ++ ref ++ "' not found"
  | .malformedCriteria reason => "malformed criteria: " ++ reason
  | .rule e => e.message
  | .fetchFailed causes => "failed to fetch resource: " ++ ": ".intercalate causes

/-- What a caller is told: nothing about why fetching failed. -/
def publicMessage : ResolutionError → String
  | .fetchFailed _ => "internal error while fetching the resource"
  | e => e.message

/-- The status of the answer: the caller's fault, or the service's own. -/
def status : ResolutionError → Nat
  | .resourceTypeMismatch _ _ | .resourceNotFound _ | .malformedCriteria _ => 400
  | .rule (.invalidParams _ _) | .rule (.reservedName _) => 400
  | .rule (.unknownRule _) | .rule (.duplicateRule _) => 500
  | .fetchFailed _ => 500

/-- The code that programs read. -/
def code : ResolutionError → String
  | .resourceTypeMismatch _ _ => "RESOURCE_TYPE_MISMATCH"
  | .resourceNotFound _ => "RESOURCE_NOT_FOUND"
  | .malformedCriteria _ => "MALFORMED_CRITERIA"
  | .rule (.invalidParams _ _) => "INVALID_PARAMS"
  | .rule (.unknownRule _) => "UNKNOWN_RULE"
  | .rule (.reservedName _) => "MALFORMED_CRITERIA"
  | .rule (.duplicateRule _) => "INTERNAL_ERROR"
  | .fetchFailed _ => "FETCH_FAILED"

end ResolutionError

/-! ## The two operations -/

/-- The outcome of looking a resource up: there, not there, or the causes of a failure. -/
abbrev Fetched (R : Type) := Except (List String) (Option R)

/-- The resolution of criteria for one type of resources. To fetch a resource is an action
of `m`, so what else it does can be observed. -/
structure Owner (m : Type → Type) (R Q : Type) where
  pluginId : String
  resourceType : String
  registry : Registry R Q
  fetch : String → m (Fetched R)

namespace Owner

/-- Criteria as a decision that this service can settle. -/
def decision (o : Owner m R Q) (conditions : Criteria Condition) : ConditionalDecision :=
  ⟨o.pluginId, o.resourceType, conditions⟩

/-- What is checked before anything is fetched: a request is about the resources of this
service, and each of its conditions can be interpreted. -/
def check (o : Owner m R Q) (resourceType : String) (c : Criteria Condition) :
    Except ResolutionError Unit :=
  if resourceType = o.resourceType then (o.registry.validate c).mapError .rule
  else .error (.resourceTypeMismatch o.resourceType resourceType)

/-- The resource that was looked up. -/
def found (ref : String) : Fetched R → Except ResolutionError R
  | .error causes => .error (.fetchFailed causes)
  | .ok none => .error (.resourceNotFound ref)
  | .ok (some r) => .ok r

/-- Whether a resource satisfies the conditions. -/
def satisfies (o : Owner m R Q) (c : Criteria Condition) (resource : R) :
    Except ResolutionError ApplyResponse :=
  ((o.registry.apply c resource).mapError .rule).map ApplyResponse.mk

/-- The query that filters stand for. -/
def lower (o : Owner m R Q) (c : Criteria Condition) :
    Except ResolutionError (Criteria Q) :=
  (o.registry.toQuery c).mapError .rule

variable [Monad m]

/-- Whether the resource of a request satisfies its conditions. The resource is fetched
once, and only after the checks. -/
def applyConditions (o : Owner m R Q) (request : ApplyRequest) :
    m (Except ResolutionError ApplyResponse) :=
  match o.check request.resourceType request.conditions with
  | .error e => pure (.error e)
  | .ok () => do
    match found request.resourceRef (← o.fetch request.resourceRef) with
    | .error e => return .error e
    | .ok resource => return o.satisfies request.conditions resource

/-- The query that the filters of a request stand for. A resource is fetched only if one is
named. -/
def resolveFilters (o : Owner m R Q) (request : ResolveRequest) :
    m (Except ResolutionError (Criteria Q)) :=
  match o.check request.resourceType request.filters with
  | .error e => pure (.error e)
  | .ok () =>
    match request.resourceRef with
    | none => pure (o.lower request.filters)
    | some ref => do
      match found ref (← o.fetch ref) with
      | .error e => return .error e
      | .ok _ => return o.lower request.filters

end Owner
end Permit
