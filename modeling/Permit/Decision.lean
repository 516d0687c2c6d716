-- Decisions of a policy: yes, no, or yes where criteria hold. What cannot be evaluated
-- is denied.
import Permit.Criteria.Document
import Permit.Json.Decoder.Variants
import Permit.Registry

namespace Permit

open Json

/-! ## Decisions -/

/-- Criteria for the service that owns the resources of a type. -/
structure ConditionalDecision where
  pluginId : String
  resourceType : String
  conditions : Criteria Condition

/-- What a policy decides. -/
inductive PolicyDecision where
  | allow
  | deny
  | conditional (decision : ConditionalDecision)

/-- What a policy is asked: a permission, the type of the resources it is about, whether it
only reads, and who asks. -/
structure AuthorizeQuery where
  permission : String
  resourceType : Option String
  isRead : Bool
  principal : Option String
deriving DecidableEq

/-- Whether the decision lets a resource through. Criteria that cannot be evaluated do
not. -/
def PolicyDecision.allows {R Q : Type} (d : PolicyDecision) (g : Registry R Q)
    (resource : R) : Bool :=
  match d with
  | .allow => true
  | .deny => false
  | .conditional c =>
    match g.apply c.conditions resource with
    | .ok allowed => allowed
    | .error _ => false

/-! ## The JSON forms -/

/-- Text or nothing. -/
def optionJson : Option String → Value
  | none => .null
  | some s => .str s

/-- Criteria over conditions as a document. -/
def Criteria.conditionsJson (c : Criteria Condition) : Value := c.toJson Condition.toJson

/-- Reads criteria over conditions. -/
def Criteria.conditionsDecoder : Decoder (Criteria Condition) :=
  Criteria.decoder Condition.decoder

namespace ConditionalDecision

/-- The members of the object. -/
def members (d : ConditionalDecision) : List (String × Value) :=
  [("pluginId", .str d.pluginId), ("resourceType", .str d.resourceType),
    ("conditions", d.conditions.conditionsJson)]

def toJson (d : ConditionalDecision) : Value := .obj d.members

def record : Record ConditionalDecision :=
  ((Record.required "pluginId" .string).and
    ((Record.required "resourceType" .string).and
      (Record.required "conditions" Criteria.conditionsDecoder))).map
    fun (pluginId, resourceType, conditions) => ⟨pluginId, resourceType, conditions⟩

def decoder : Decoder ConditionalDecision := record.toDecoder "struct ConditionalDecision" false

end ConditionalDecision

namespace PolicyDecision

/-- The result comes first, and then the members of a conditional decision. -/
def toJson : PolicyDecision → Value
  | .allow => .obj [("result", .str "ALLOW")]
  | .deny => .obj [("result", .str "DENY")]
  | .conditional d => .obj (("result", .str "CONDITIONAL") :: d.members)

def variants : Variants PolicyDecision :=
  [("ALLOW", .nothing .allow), ("DENY", .nothing .deny),
    ("CONDITIONAL", .value (ConditionalDecision.decoder.map .conditional))]

def decoder : Decoder PolicyDecision :=
  variants.toTaggedDecoder "result" "internally tagged enum PolicyDecision"

end PolicyDecision

namespace AuthorizeQuery

def toJson (q : AuthorizeQuery) : Value :=
  .obj [("permission", .str q.permission), ("resourceType", optionJson q.resourceType),
    ("isRead", .bool q.isRead), ("principal", optionJson q.principal)]

def decoder : Decoder AuthorizeQuery :=
  (((Record.required "permission" .string).and
    ((Record.optional "resourceType" .string).and
      ((Record.field "isRead" .bool (some false)).and
        (Record.optional "principal" .string)))).map
    fun (permission, resourceType, isRead, principal) =>
      ⟨permission, resourceType, isRead, principal⟩).toDecoder "struct AuthorizeQuery" false

end AuthorizeQuery
end Permit
