-- The messages between a service that decides and one that owns resources: two requests,
-- the answer to the first, and the answer to a request that is refused.
import Permit.Decision

namespace Permit

open Json

/-- The path of the question whether a resource satisfies conditions. -/
def applyPath : String := "/permissions/apply-conditions"

/-- The path of the question for the query that conditions stand for. -/
def resolvePath : String := "/permissions/resolve-filters"

/-! ## Requests -/

/-- Does the resource satisfy the conditions? -/
structure ApplyRequest where
  resourceRef : String
  resourceType : String
  conditions : Criteria Condition

namespace ApplyRequest

def toJson (r : ApplyRequest) : Value :=
  .obj [("resourceRef", .str r.resourceRef), ("resourceType", .str r.resourceType),
    ("conditions", r.conditions.conditionsJson)]

def decoder : Decoder ApplyRequest :=
  (((Record.required "resourceRef" .string).and
    ((Record.required "resourceType" .string).and
      (Record.required "conditions" Criteria.conditionsDecoder))).map
    fun (resourceRef, resourceType, conditions) =>
      ⟨resourceRef, resourceType, conditions⟩).toDecoder "struct ApplyConditionsRequest" false

end ApplyRequest

/-- What query do the filters stand for? A reference is only checked to exist. -/
structure ResolveRequest where
  resourceRef : Option String
  resourceType : String
  filters : Criteria Condition

namespace ResolveRequest

/-- A reference that is not there is not written. -/
def toJson (r : ResolveRequest) : Value :=
  let ref := match r.resourceRef with
    | none => []
    | some ref => [("resourceRef", Value.str ref)]
  .obj (ref ++ [("resourceType", .str r.resourceType), ("filters", r.filters.conditionsJson)])

def decoder : Decoder ResolveRequest :=
  (((Record.optional "resourceRef" .string).and
    ((Record.required "resourceType" .string).and
      (Record.required "filters" Criteria.conditionsDecoder))).map
    fun (resourceRef, resourceType, filters) =>
      ⟨resourceRef, resourceType, filters⟩).toDecoder "struct ResolveFiltersRequest" false

end ResolveRequest

/-! ## Answers -/

/-- Whether the resource satisfies the conditions. -/
structure ApplyResponse where
  allowed : Bool
deriving DecidableEq

namespace ApplyResponse

def toJson (r : ApplyResponse) : Value := .obj [("allowed", .bool r.allowed)]

def decoder : Decoder ApplyResponse :=
  ((Record.required "allowed" .bool).map ApplyResponse.mk).toDecoder
    "struct ApplyConditionsResponse" false

end ApplyResponse

/-- Why a request was refused: a fixed code and a message. -/
structure ErrorResponse where
  code : String
  message : String
deriving DecidableEq

namespace ErrorResponse

def toJson (r : ErrorResponse) : Value :=
  .obj [("error", .obj [("code", .str r.code), ("message", .str r.message)])]

def detailDecoder : Decoder ErrorResponse :=
  (((Record.required "code" .string).and (Record.required "message" .string)).map
    fun (code, message) => ⟨code, message⟩).toDecoder "struct ErrorDetail" false

def decoder : Decoder ErrorResponse :=
  (Record.required "error" detailDecoder).toDecoder "struct ErrorResponse" false

end ErrorResponse
end Permit
