-- Registries: the rules of a service by their names, and the interpretation of criteria
-- with them. The first rule of a name keeps it.
import Permit.Rule

namespace Permit

open Json

variable {P R Q : Type}

/-! ## The rules by name -/

/-- The rules with one more, in the order of their names. -/
def insertRule (rule : Rule R Q) : List (Rule R Q) → List (Rule R Q)
  | [] => [rule]
  | r :: rest => if rule.name < r.name then rule :: r :: rest else r :: insertRule rule rest

theorem mem_insertRule {rule r : Rule R Q} {rules : List (Rule R Q)} :
    r ∈ insertRule rule rules ↔ r = rule ∨ r ∈ rules := by
  induction rules with
  | nil => simp [insertRule]
  | cons s rest ih =>
    rw [insertRule]
    split
    · simp
    · rw [List.mem_cons, List.mem_cons, ih, or_left_comm]

theorem name_mem_insertRule {rule : Rule R Q} {rules : List (Rule R Q)} {n : String}
    (h : n ∈ (insertRule rule rules).map Rule.name) :
    n = rule.name ∨ n ∈ rules.map Rule.name := by
  obtain ⟨r, hr, rfl⟩ := List.mem_map.1 h
  rcases mem_insertRule.1 hr with rfl | old
  · exact .inl rfl
  · exact .inr (List.mem_map_of_mem old)

/-- A rule of a new name keeps the names in order, each once. -/
theorem pairwise_insertRule {rule : Rule R Q} {rules : List (Rule R Q)}
    (new : rule.name ∉ rules.map Rule.name)
    (h : (rules.map Rule.name).Pairwise (· < ·)) :
    ((insertRule rule rules).map Rule.name).Pairwise (· < ·) := by
  induction rules with
  | nil => simp [insertRule]
  | cons r rest ih =>
    simp only [List.map_cons, List.pairwise_cons, List.mem_cons, not_or] at h new
    simp only [insertRule]
    split
    · next hlt =>
      simp only [List.map_cons, List.pairwise_cons, List.mem_cons]
      refine ⟨?_, h.1, h.2⟩
      rintro n (rfl | hn)
      · exact hlt
      · exact String.lt_trans hlt (h.1 n hn)
    · next hlt =>
      simp only [List.map_cons, List.pairwise_cons]
      refine ⟨fun n hn => ?_, ih new.2 h.2⟩
      rcases name_mem_insertRule hn with rfl | hn
      · exact Value.lt_of_not_lt_of_ne hlt new.1
      · exact h.1 n hn

/-- Rules in the order of their names, each name once and none reserved. -/
structure Registry (R Q : Type) where
  rules : List (Rule R Q)
  sorted : (rules.map Rule.name).Pairwise (· < ·)
  permitted : ∀ r ∈ rules, isReserved r.name = false

namespace Registry

/-- No rules. -/
def empty : Registry R Q := ⟨[], List.Pairwise.nil, by simp⟩

/-- The names, in order. -/
def names (g : Registry R Q) : List String := g.rules.map Rule.name

/-- The number of rules. -/
def size (g : Registry R Q) : Nat := g.rules.length

/-- The rules as they are shown, in the order of their names. -/
def descriptions (g : Registry R Q) : List RuleDescription := g.rules.map Rule.describe

/-- Whether a rule has the name. -/
def contains (g : Registry R Q) (name : String) : Bool := g.names.contains name

/-- The registry with one more rule. -/
def add (g : Registry R Q) (rule : Rule R Q) : Except RuleError (Registry R Q) :=
  if reserved : isReserved rule.name then .error (.reservedName rule.name)
  else if taken : rule.name ∈ g.rules.map Rule.name then .error (.duplicateRule rule.name)
  else
    .ok ⟨insertRule rule g.rules, pairwise_insertRule taken g.sorted, fun r h => by
      rcases mem_insertRule.1 h with rfl | h
      · simpa using reserved
      · exact g.permitted r h⟩

/-- The registry with one more typed rule, and the binder of its conditions. -/
def register (g : Registry R Q) (rule : TypedRule P R Q) :
    Except RuleError (Binder P × Registry R Q) :=
  (g.add rule.erase).map (Binder.of rule, ·)

/-- The same without the binder, so that more rules can follow. -/
def withRule (g : Registry R Q) (rule : TypedRule P R Q) : Except RuleError (Registry R Q) :=
  (g.register rule).map Prod.snd

/-- The registry with more rules, up to the first that cannot be added. -/
def extend (g : Registry R Q) : List (Rule R Q) → Except RuleError (Registry R Q)
  | [] => .ok g
  | rule :: rest =>
    match g.add rule with
    | .error e => .error e
    | .ok g => extend g rest

/-- The rule of that name. -/
def resolve (g : Registry R Q) (name : String) : Except RuleError (Rule R Q) :=
  match g.rules.find? fun r => r.name == name with
  | some rule => .ok rule
  | none => .error (.unknownRule name)

/-- The registry in one line. -/
def text (g : Registry R Q) : String :=
  "RuleRegistry(" ++ toString g.rules.length ++ " rules: " ++ ", ".intercalate g.names ++ ")"

/-- The registry as messages show it. -/
def inspect (g : Registry R Q) : String :=
  "RuleRegistry \x7b rules: [" ++ ", ".intercalate (g.names.map Text.quoted) ++ "] \x7d"

/-! ## Interpreting criteria -/

/-- The meaning of a condition. -/
def meaning (g : Registry R Q) (c : Condition) : Except RuleError (Meaning R Q) :=
  match g.resolve c.rule with
  | .error e => .error e
  | .ok rule => rule.meaning c.params

/-- Whether the criteria hold for a resource. An error of a condition that is reached is
neither yes nor no. -/
def apply (g : Registry R Q) (criteria : Criteria Condition) (resource : R) :
    Except RuleError Bool :=
  criteria.tryEvaluate fun c => (g.meaning c).map fun m => m.holds resource

/-- The criteria as a tree of query fragments. -/
def toQuery (g : Registry R Q) (criteria : Criteria Condition) :
    Except RuleError (Criteria Q) :=
  criteria.tryMap fun c => (g.meaning c).map Meaning.query

/-- The first error among conditions. -/
def checkAll (g : Registry R Q) : List Condition → Except RuleError Unit
  | [] => .ok ()
  | c :: rest =>
    match g.meaning c with
    | .error e => .error e
    | .ok _ => checkAll g rest

/-- Every condition has a rule and parameters for it. -/
def validate (g : Registry R Q) (criteria : Criteria Condition) : Except RuleError Unit :=
  g.checkAll criteria.leaves

end Registry
end Permit
