-- Conditions: the name of a rule with its positional parameters. The names `all` and
-- `any` are kept for empty groups.
import Permit.Criteria.Printer
import Permit.Json.Decoder.Record
import Permit.RuleError

namespace Permit

open Json

/-- The names that the text form uses for empty groups. -/
def isReserved (name : String) : Bool := name == "all" || name == "any"

/-- A rule with parameters. No reserved name is a rule, and the parameters are in
canonical form. -/
structure Condition where
  rule : String
  params : List Value
  permitted : isReserved rule = false
  canonical : ∀ v ∈ params, v.Canonical

namespace Condition

/-- The condition on `rule` with the given parameters, unless the name is reserved. -/
def of (rule : String) (params : List Value) : Except RuleError Condition :=
  if h : isReserved rule = false then
    .ok ⟨rule, Value.normalizeItems params, h, Value.canonical_of_mem_normalizeItems⟩
  else .error (.reservedName rule)

/-- The parameters, separated by `, `. -/
def writeParams : List Value → List Char
  | [] => []
  | [v] => v.write
  | v :: rest => v.write ++ ',' :: ' ' :: writeParams rest

/-- The text form: the name, then the parameters in parentheses. -/
def write (c : Condition) : List Char :=
  c.rule.toList ++ '(' :: writeParams c.params ++ [')']

instance : ToString Condition := ⟨fun c => String.ofList c.write⟩

/-- Conditions are the same if they have the same rule and the same parameters. -/
def same (a b : Condition) : Bool := a.rule == b.rule && Value.sameItems a.params b.params

/-! ## The JSON form -/

/-- The rule and the parameters as an object. -/
def toJson (c : Condition) : Value :=
  .obj [("rule", .str c.rule), ("params", .arr c.params)]

/-- Reads a condition; the parameters may be left out. -/
def decoder : Decoder Condition :=
  let fields := (Record.required "rule" .string).and
    (Record.field "params" (.list .whole) (some []))
  (fields.toDecoder "struct RawCondition" true).tryMap fun (rule, params) =>
    (of rule params).mapError fun e => .rejected e.message

end Condition
end Permit
