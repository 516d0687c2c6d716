-- What is said about a text that is no expression: the text or the line of the failure,
-- a mark under the place, and what was expected there.
import Permit.Expression.Reader

namespace Permit
namespace Expression

/-! ## Expectations -/

/-- How an expectation is named. -/
def Expectation.text : Expectation → String
  | .terminatedString => "terminated string"
  | .literal => "literal"
  | .closingParenthesis => "\x60)\x60"
  | .condition => "condition"
  | .shallowNesting => "at most 64 nested levels"

/-- The last line of a message: what is invalid and what was expected. -/
def Failure.reason (f : Failure) : String :=
  let invalid := if f.expected.contains .shallowNesting then "invalid nesting\n" else ""
  let expected :=
    if f.expected.isEmpty then ""
    else "expected " ++ ", ".intercalate (f.expected.map Expectation.text)
  invalid ++ expected

/-! ## Places -/

/-- The length in bytes. -/
def byteLength : List Char → Nat
  | [] => 0
  | c :: rest => c.utf8Size + byteLength rest

/-- The part after the last line break. -/
def lastLine (s : List Char) : List Char := (s.reverse.takeWhile (· != '\n')).reverse

/-- The number of the line, from zero, and the number of places before the failure in it.
The places before a character of several bytes are counted in bytes. At the end of the
text, the failure stands one place after the last character. -/
def place (text rest : List Char) : Nat × Nat :=
  let before := text.take (text.length - rest.length)
  match rest with
  | [] =>
    let before := before.dropLast
    (before.count '\n', (lastLine before).length + if text.isEmpty then 0 else 1)
  | c :: _ =>
    let line := lastLine before
    (before.count '\n', if c.utf8Size = 1 then line.length else byteLength line)

/-- The lines of a text. -/
def lines : List Char → List (List Char)
  | [] => [[]]
  | '\n' :: rest => [] :: lines rest
  | c :: rest =>
    match lines rest with
    | [] => [[c]]
    | line :: more => (c :: line) :: more

/-- `n` blanks. -/
def blanks (n : Nat) : String := String.ofList (List.replicate n ' ')

/-- The text with a mark under the place of the failure; of several lines only one. -/
def pointer (text rest : List Char) : String :=
  if text.contains '\n' then
    let (line, column) := place text rest
    let number := toString (line + 1)
    let gutter := blanks number.length
    let content := String.ofList ((lines text)[line]?.getD [])
    "parse error at line " ++ number ++ ", column " ++ toString (column + 1) ++ "\n"
      ++ gutter ++ " |\n"
      ++ number ++ " | " ++ content ++ "\n"
      ++ gutter ++ " | " ++ blanks column ++ "^\n"
  else
    String.ofList text ++ "\n"
      ++ blanks (byteLength (text.take (text.length - rest.length))) ++ "^\n"

end Expression

/-! ## The reading of a text -/

/-- A text that is no expression, and where reading it stopped. -/
structure ExpressionError where
  source : String
  failure : Expression.Failure

namespace ExpressionError

/-- The place and the reason. -/
def message (e : ExpressionError) : String :=
  Expression.pointer e.source.toList e.failure.rest ++ e.failure.reason

instance : ToString ExpressionError := ⟨fun e => "parse error: " ++ e.message⟩

end ExpressionError

/-- The criteria that a text spells. -/
def Criteria.ofText (text : String) : Except ExpressionError (Criteria Condition) :=
  match Expression.expression text.toList with
  | .ok c => .ok c
  | .error f => .error ⟨text, f⟩

end Permit
