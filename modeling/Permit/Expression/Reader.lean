-- The text form of criteria. `or` joins chains of `and`, which join conditions, empty
-- groups and groups in parentheses; groups nest at most 64 deep, and so do literals.
import Permit.Condition
import Permit.Expression.Literal

namespace Permit.Expression

/-- How deep groups may nest, and literals. -/
def maxNesting : Nat := 64

/-! ## Conditions and empty groups -/

/-- What is left after an opening parenthesis with blanks around it. -/
def openParams (s : List Char) : Parsed Unit :=
  match char '(' (skipBlanks s) with
  | .error f => .error f
  | .ok (_, rest) => .ok ((), skipBlanks rest)

/-- A condition: a name that is not reserved, and literals in parentheses. -/
def condition (s : List Char) : Parsed Condition :=
  match name s with
  | .error f => .error f
  | .ok (ruleName, rest) =>
    if isReserved (String.ofList ruleName) then stop s
    else
      match openParams rest with
      | .error f => .error f
      | .ok (_, rest) =>
        match separated comma (literal maxNesting) rest with
        | .error f => .error f
        | .ok (params, rest) =>
          match (closing ')' rest).expecting .closingParenthesis with
          | .error f => .error f
          | .ok (_, rest) =>
            match Condition.of (String.ofList ruleName) params with
            | .ok c => .ok (c, rest)
            | .error _ => stop s

/-- What is left after `()`, with blanks allowed before each parenthesis. -/
def emptyParens? (s : List Char) : Option (List Char) :=
  match skipBlanks s with
  | '(' :: rest =>
    match skipBlanks rest with
    | ')' :: rest => some rest
    | _ => none
  | _ => none

/-- `all()` or `any()`. -/
def emptyGroup? (s : List Char) : Option (Criteria Condition × List Char) :=
  match (word? "all".toList s).bind emptyParens? with
  | some rest => some (.all [], rest)
  | none => ((word? "any".toList s).bind emptyParens?).map (.any [], ·)

/-! ## Chains -/

/-- An operator in lower or upper case, after blanks and not as part of a longer name. -/
def operator? (lower upper : String) (s : List Char) : Option (List Char) :=
  let s := skipBlanks s
  match (word? lower.toList s).or (word? upper.toList s) with
  | some (c :: rest) => if isNameChar c then none else some (c :: rest)
  | some [] => some []
  | none => none

/-- A chain of one is its only part. -/
def joined (group : List (Criteria Condition) → Criteria Condition)
    (first : Criteria Condition) (rest : List (Criteria Condition)) : Criteria Condition :=
  if rest.isEmpty then first else group (first :: rest)

/-- Parts joined by an operator. -/
def chain (group : List (Criteria Condition) → Criteria Condition) (lower upper : String)
    (part : List Char → Parsed (Criteria Condition)) (s : List Char) :
    Parsed (Criteria Condition) :=
  match part s with
  | .error f => .error f
  | .ok (first, rest) =>
    (operands (operator? lower upper) part s.length rest).map (joined group first)

/-- A group in parentheses: once it is opened, it must be whole. -/
def groupBody (inner : List Char → Parsed (Criteria Condition)) (s : List Char) :
    Parsed (Criteria Condition) :=
  match (inner s).commit with
  | .error f => .error f
  | .ok (c, rest) => (closing ')' rest).map fun _ => c

/-- A part of a chain of `and`; `group` reads what stands after an opening parenthesis. -/
def primary (group : List Char → Parsed (Criteria Condition)) (s : List Char) :
    Parsed (Criteria Condition) :=
  let s := skipBlanks s
  Parsed.expecting .condition <|
    match s with
    | '(' :: rest => group rest
    | s =>
      match emptyGroup? s with
      | some r => .ok r
      | none => (condition s).map .leaf

/-- An expression whose groups nest at most `budget` deep. -/
def orChain : Nat → List Char → Parsed (Criteria Condition)
  | 0 => chain .any "or" "OR" (chain .all "and" "AND" (primary tooDeep))
  | budget + 1 =>
    chain .any "or" "OR" (chain .all "and" "AND" (primary (groupBody (orChain budget))))

/-- A whole text: an expression, and only blanks after it. -/
def expression (s : List Char) : Except Failure (Criteria Condition) :=
  match orChain maxNesting s with
  | .error f => .error f
  | .ok (c, rest) =>
    match skipBlanks rest with
    | [] => .ok c
    | rest => .error ⟨rest, false, []⟩

end Permit.Expression
