-- Reading a text from the left: a reader takes the characters that are left and gives a
-- result with what is left after it, or a failure with what was left where it stopped.

namespace Permit.Expression

/-! ## Failures -/

/-- What a reader can miss. -/
inductive Expectation where
  | terminatedString
  | literal
  | closingParenthesis
  | condition
  | shallowNesting
deriving DecidableEq, Repr

/-- Where and why reading stopped. A committed failure ends the reading; any other lets
an alternative be tried. Of the expectations, the innermost stands first. -/
structure Failure where
  rest : List Char
  committed : Bool
  expected : List Expectation
deriving DecidableEq, Repr

/-- A result with the characters after it, or a failure. -/
abbrev Parsed (α : Type) := Except Failure (α × List Char)

/-- A failure that lets an alternative be tried. -/
def stop {α : Type} (rest : List Char) : Parsed α := .error ⟨rest, false, []⟩

/-- A failure that ends the reading. -/
def abort {α : Type} (rest : List Char) : Parsed α := .error ⟨rest, true, []⟩

namespace Parsed

variable {α β : Type}

/-- Ends the reading if this failed. -/
def commit : Parsed α → Parsed α
  | .ok r => .ok r
  | .error f => .error { f with committed := true }

/-- Adds what was missed if this failed. -/
def expecting (e : Expectation) : Parsed α → Parsed α
  | .ok r => .ok r
  | .error f => .error { f with expected := f.expected ++ [e] }

/-- The alternative if this failed and did not end the reading. -/
def orElse (r : Parsed α) (alternative : Unit → Parsed α) : Parsed α :=
  match r with
  | .ok r => .ok r
  | .error f => if f.committed then .error f else alternative ()

/-- Changes the result. -/
def map (f : α → β) : Parsed α → Parsed β
  | .ok (a, rest) => .ok (f a, rest)
  | .error f => .error f

end Parsed

/-! ## Characters and words -/

/-- What is left after the character `c`. -/
def char (c : Char) : List Char → Parsed Unit
  | [] => stop []
  | x :: rest => if x = c then .ok ((), rest) else stop (x :: rest)

/-- What is left after a word, if the text starts with it. -/
def word? : List Char → List Char → Option (List Char)
  | [], s => some s
  | _ :: _, [] => none
  | w :: ws, c :: s => if w = c then word? ws s else none

/-- The blanks between words. -/
def isBlank (c : Char) : Bool :=
  c == ' ' || c == '\t' || c == '\n' || c == '\x0c' || c == '\r'

/-- What is left after blanks and comments. A comment goes from `#` to the end of its line;
`comment` is the text from its `#` on while inside one. A carriage return alone is no end
of a line: what it stands in is no comment, and nothing from the `#` on is skipped. -/
def skip (comment : Option (List Char)) : List Char → List Char
  | [] => []
  | c :: rest =>
    match comment with
    | none =>
      if isBlank c then skip none rest
      else if c = '#' then skip (some (c :: rest)) rest
      else c :: rest
    | some start =>
      if c = '\n' then skip none rest
      else if c = '\r' then
        if rest.head? = some '\n' then skip none rest else start
      else skip (some start) rest

/-- What is left after blanks and comments. -/
def skipBlanks (s : List Char) : List Char := skip none s

/-! ## Names -/

/-- The characters a name starts with. -/
def isNameStart (c : Char) : Bool := c.isAlpha || c == '_'

/-- The characters of a name. -/
def isNameChar (c : Char) : Bool := c.isAlphanum || c == '_'

/-- The longest name at the start of the text. -/
def name : List Char → Parsed (List Char)
  | [] => stop []
  | c :: rest =>
    if isNameStart c then .ok (c :: rest.takeWhile isNameChar, rest.dropWhile isNameChar)
    else stop (c :: rest)

/-! ## Repetition -/

/-- Items with separators between them, none at all included. A separator that no item
follows is not read. Each item is followed by at most `fuel` more. -/
def moreItems {α : Type} (separator : List Char → Option (List Char))
    (item : List Char → Parsed α) : Nat → List Char → Parsed (List α)
  | 0, s => .ok ([], s)
  | fuel + 1, s =>
    match separator s with
    | none => .ok ([], s)
    | some afterSeparator =>
      match item afterSeparator with
      | .error f => if f.committed then .error f else .ok ([], s)
      | .ok (a, rest) => (moreItems separator item fuel rest).map (a :: ·)

/-- Items with separators between them, none at all included. Every item and separator is
read from the text, so its length bounds their number. -/
def separated {α : Type} (separator : List Char → Option (List Char))
    (item : List Char → Parsed α) (s : List Char) : Parsed (List α) :=
  match item s with
  | .error f => if f.committed then .error f else .ok ([], s)
  | .ok (a, rest) => (moreItems separator item s.length rest).map (a :: ·)

/-- A comma with blanks around it. -/
def comma (s : List Char) : Option (List Char) :=
  match skipBlanks s with
  | ',' :: rest => some (skipBlanks rest)
  | _ => none

/-- Items, each after an operator, as long as there is one. After an operator an item must
follow. -/
def operands {α : Type} (operator : List Char → Option (List Char))
    (item : List Char → Parsed α) : Nat → List Char → Parsed (List α)
  | 0, s => .ok ([], s)
  | fuel + 1, s =>
    match operator s with
    | none => .ok ([], s)
    | some afterOperator =>
      match (item afterOperator).commit with
      | .error f => .error f
      | .ok (a, rest) => (operands operator item fuel rest).map (a :: ·)

end Permit.Expression
