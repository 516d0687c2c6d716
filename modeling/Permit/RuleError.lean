-- What can be wrong with a rule or a condition on it.

namespace Permit

inductive RuleError where
  | duplicateRule (name : String)
  | reservedName (name : String)
  | unknownRule (name : String)
  | invalidParams (rule reason : String)
deriving DecidableEq, Repr

namespace RuleError

/-- The rule that the error is about. -/
def rule : RuleError → String
  | .duplicateRule name | .reservedName name | .unknownRule name => name
  | .invalidParams rule _ => rule

/-- What is said about the error. -/
def message : RuleError → String
  | .duplicateRule name => "duplicate rule name '" ++ name ++ "'"
  | .reservedName name => "rule name '" ++ name ++ "' is reserved for empty groups"
  | .unknownRule name => "unknown rule '" ++ name ++ "'"
  | .invalidParams rule reason =>
    "invalid params for rule '" ++ rule ++ "': " ++ reason

instance : ToString RuleError := ⟨message⟩

end RuleError
end Permit
