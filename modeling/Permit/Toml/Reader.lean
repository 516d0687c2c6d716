-- TOML texts: statements line by line, each a header or an assignment. Arrays and tables in
-- braces may go over many lines and nest up to a budget; the names of a key stay on one line.
import Permit.Toml.Moment
import Permit.Toml.Number
import Permit.Toml.Text

namespace Permit.Toml

/-! ## Between the words -/

/-- What is left after blanks, ends of lines and comments; `comment` inside one. -/
def skipFiller (comment : Bool) : List Char → Option (List Char)
  | [] => some []
  | c :: rest =>
    if c = '\n' then skipFiller false rest
    else if c = '\r' ∧ rest.head? = some '\n' then skipFiller comment rest
    else if comment then if isPlain c then skipFiller true rest else none
    else if isSpace c then skipFiller false rest
    else if c = '#' then skipFiller true rest
    else some (c :: rest)

/-- What is left after the blanks of a line. -/
def skipSpaces (s : List Char) : List Char := s.dropWhile isSpace

/-- Whether nothing more stands on the line but a comment. -/
def lineDone (s : List Char) : Bool :=
  match skipSpaces s with
  | [] | '#' :: _ => true
  | s => (newline? s).isSome

/-! ## Keys -/

/-- The characters of a key without quotes. -/
def isBare (c : Char) : Bool := c.isAlphanum || c == '_' || c == '-'

/-- One name of a key. -/
def simpleKey? (s : List Char) : Option (String × List Char) :=
  match s.takeWhile isBare with
  | [] => (shortString? s).map fun (name, rest) => (String.ofList name, rest)
  | name => some (String.ofList name, s.dropWhile isBare)

/-- More names of a key, each after a point, with blanks around it. -/
def moreKeys? : Nat → List Char → Option (List String × List Char)
  | 0, _ => none
  | fuel + 1, s =>
    match skipSpaces s with
    | '.' :: rest =>
      match simpleKey? (skipSpaces rest) with
      | none => none
      | some (name, rest) =>
        (moreKeys? fuel rest).map fun (names, rest) => (name :: names, rest)
    | rest => some ([], rest)

/-- The key with these names, of which there is at least the first. -/
def Key.ofNames (first : String) (more : List String) : Key :=
  match more.getLast? with
  | none => ⟨[], first⟩
  | some last => ⟨first :: more.dropLast, last⟩

/-- How many names a key may have, and how deep arrays and tables in braces may nest. -/
def maxNesting : Nat := 80

/-- A key, and what follows the blanks after it. -/
def key? (s : List Char) : Option (Key × List Char) :=
  match simpleKey? s with
  | none => none
  | some (first, rest) =>
    match moreKeys? (rest.length + 1) rest with
    | none => none
    | some (more, rest) =>
      if more.length < maxNesting then some (.ofNames first more, rest) else none

/-! ## Values -/

/-- The characters of values without quotes. -/
def isWordChar (c : Char) : Bool :=
  c.isAlphanum || c == '_' || c == '-' || c == '+' || c == '.' || c == ':'

/-- A word at the start. A date and a time with one blank between them are one word. -/
def word (s : List Char) : List Char × List Char :=
  let first := s.takeWhile isWordChar
  match (date? first).map Prod.snd, s.dropWhile isWordChar with
  | some [], ' ' :: c :: rest =>
    if c.isDigit then
      (first ++ ' ' :: (c :: rest).takeWhile isWordChar, (c :: rest).dropWhile isWordChar)
    else (first, ' ' :: c :: rest)
  | _, rest => (first, rest)

/-- The value that a word spells. -/
def valueOfWord? (w : List Char) : Option Value :=
  if w = "true".toList then some (.boolean true)
  else if w = "false".toList then some (.boolean false)
  else
    match moment? w with
    | some text => some (.moment (String.ofList text))
    | none => number? w

/-- A value without brackets or braces. -/
def scalar? (s : List Char) : Option (Value × List Char) :=
  match s with
  | '"' :: _ | '\'' :: _ => (string? s).map fun (t, rest) => (.string (String.ofList t), rest)
  | s =>
    let (w, rest) := word s
    (valueOfWord? w).map (·, rest)

/-- Items up to the closing character, with commas between them and perhaps after the
last. -/
def items? {α : Type} (close : Char) (item : List Char → Option (α × List Char)) :
    Nat → List Char → Option (List α × List Char)
  | 0, _ => none
  | fuel + 1, s =>
    match skipFiller false s with
    | none | some [] => none
    | some (c :: rest) =>
      if c = close then some ([], rest)
      else
        match item (c :: rest) with
        | none => none
        | some (a, rest) =>
          match skipFiller false rest with
          | some (',' :: rest) =>
            (items? close item fuel rest).map fun (more, rest) => (a :: more, rest)
          | some (c :: rest) => if c = close then some ([a], rest) else none
          | _ => none

/-- An assignment on one line, whose value is read by `value`. -/
def entryOf? (value : List Char → Option (Value × List Char)) (s : List Char) :
    Option (Entry × List Char) :=
  match key? s with
  | some (key, '=' :: rest) =>
    (value (skipSpaces rest)).map fun (v, rest) => (⟨key, v⟩, rest)
  | _ => none

/-- An assignment in braces: lines may end, with comments, on both sides of its sign, but
not inside its key. -/
def bracedEntryOf? (value : List Char → Option (Value × List Char)) (s : List Char) :
    Option (Entry × List Char) :=
  match key? s with
  | none => none
  | some (key, rest) =>
    match skipFiller false rest with
    | some ('=' :: rest) =>
      match skipFiller false rest with
      | none => none
      | some rest => (value rest).map fun (v, rest) => (⟨key, v⟩, rest)
    | _ => none

/-- A value; arrays and tables in braces nest at most `budget` deep. -/
def value? : Nat → List Char → Option (Value × List Char)
  | budget, s =>
    match s, budget with
    | '[' :: _, 0 | '{' :: _, 0 => none
    | '[' :: rest, budget + 1 =>
      (items? ']' (value? budget) (rest.length + 1) rest).map fun (items, rest) =>
        (.array false items, rest)
    | '{' :: rest, budget + 1 =>
      match items? '}' (bracedEntryOf? (value? budget)) (rest.length + 1) rest with
      | none => none
      | some (entries, rest) =>
        (addEntries [] entries).map fun members => (.table .braces members, rest)
    | s, _ => scalar? s

/-! ## Statements -/

/-- A line: the header of a table, the header of a table in an array, or an assignment. -/
inductive Statement where
  | header (key : Key)
  | arrayHeader (key : Key)
  | entry (e : Entry)

/-- One statement. -/
def statement? : List Char → Option (Statement × List Char)
  | '[' :: '[' :: rest =>
    match key? (skipSpaces rest) with
    | some (key, ']' :: ']' :: rest) => some (.arrayHeader key, rest)
    | _ => none
  | '[' :: rest =>
    match key? (skipSpaces rest) with
    | some (key, ']' :: rest) => some (.header key, rest)
    | _ => none
  | s => (entryOf? (value? maxNesting) s).map fun (e, rest) => (.entry e, rest)

/-- Statements, each on lines of its own. -/
def statementsFrom? : Nat → List Char → Option (List Statement)
  | 0, _ => none
  | fuel + 1, s =>
    match skipFiller false s with
    | none => none
    | some [] => some []
    | some s =>
      match statement? s with
      | none => none
      | some (first, rest) =>
        if lineDone rest then (statementsFrom? fuel rest).map (first :: ·) else none

/-- The statements of a text. A mark of the byte order in front of it does not count. -/
def statements? (s : List Char) : Option (List Statement) :=
  let s := match s with
    | '\ufeff' :: rest => rest
    | s => s
  statementsFrom? (s.length + 1) s

end Permit.Toml
