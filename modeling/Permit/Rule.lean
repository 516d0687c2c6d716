-- Rules: named predicates over resources, each with the query fragment it stands for. A
-- rule over typed parameters is also one over lists of values.
import Permit.Condition
import Permit.Params
import Permit.Text.Quoted

namespace Permit

open Json

variable {P R Q : Type}

/-! ## Rules -/

/-- What a rule means once its parameters are known: which resources it holds for, and the
query fragment that finds them. -/
structure Meaning (R Q : Type) where
  holds : R → Bool
  query : Q

/-- A rule over lists of values. -/
structure Rule (R Q : Type) where
  name : String
  description : String
  meaning : List Value → Except RuleError (Meaning R Q)

/-- What is shown of a rule. -/
structure RuleDescription where
  name : String
  description : String
deriving DecidableEq, Repr

/-- The name and the description. -/
def Rule.describe (rule : Rule R Q) : RuleDescription := ⟨rule.name, rule.description⟩

/-- A rule over parameters of type `P`. -/
structure TypedRule (P R Q : Type) where
  name : String
  description : String
  params : Codec P
  holds : P → R → Bool
  query : P → Q

namespace TypedRule

/-- The meaning under a list of values, if they are parameters of the rule. -/
def meaning (rule : TypedRule P R Q) (params : List Value) :
    Except RuleError (Meaning R Q) :=
  match decodeParams rule.params params with
  | .ok p => .ok ⟨rule.holds p, rule.query p⟩
  | .error e => .error (.invalidParams rule.name (e.message []))

/-- The rule over lists of values. -/
def erase (rule : TypedRule P R Q) : Rule R Q :=
  ⟨rule.name, rule.description, rule.meaning⟩

end TypedRule

/-! ## Binding -/

/-- Makes conditions on one rule from typed parameters. -/
structure Binder (P : Type) where
  rule : String
  params : Codec P

namespace Binder

/-- The binder of a rule. -/
def of (rule : TypedRule P R Q) : Binder P := ⟨rule.name, rule.params⟩

/-- The condition on the rule with the given parameters. A reserved name comes before
parameters that cannot be written. -/
def bind (f : Binder P) (p : P) : Except RuleError Condition :=
  if isReserved f.rule then .error (.reservedName f.rule)
  else
    match encodeParams f.params p with
    | .ok params => Condition.of f.rule params
    | .error e => .error (.invalidParams f.rule e.message)

/-- The binder as messages show it. -/
def inspect (f : Binder P) : String :=
  "ConditionFactory \x7b rule: " ++ Text.quoted f.rule ++ " \x7d"

end Binder
end Permit
