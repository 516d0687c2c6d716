-- TOML strings: basic ones with escapes and literal ones without, on one line or on many.
import Permit.Expression.Literal

namespace Permit.Toml

/-! ## Characters -/

/-- The blanks inside a line. -/
def isSpace (c : Char) : Bool := c == ' ' || c == '\t'

/-- Characters that may stand in strings and comments: no control character but the tab. -/
def isPlain (c : Char) : Bool := c == '\t' || (0x20 ≤ c.toNat && c.toNat != 0x7f)

/-- What is left after the end of a line, if the text starts with one. -/
def newline? : List Char → Option (List Char)
  | '\n' :: rest => some rest
  | '\r' :: '\n' :: rest => some rest
  | _ => none

/-! ## Escapes -/

/-- The number of `n` hexadecimal digits, after those that make `code`. -/
def hexNumber? (code : Nat) : Nat → List Char → Option (Nat × List Char)
  | 0, s => some (code, s)
  | _ + 1, [] => none
  | n + 1, c :: rest =>
    match Expression.hexValue? c with
    | none => none
    | some d => hexNumber? (16 * code + d) n rest

/-- The character with the number of `n` hexadecimal digits; surrogates are none. -/
def codeEscape? (n : Nat) (s : List Char) : Option (Char × List Char) :=
  match hexNumber? 0 n s with
  | none => none
  | some (code, rest) => if code.isValidChar then some (Char.ofNat code, rest) else none

/-- The character that an escape stands for, after its backslash. -/
def escape? : List Char → Option (Char × List Char)
  | 'b' :: rest => some ('\x08', rest)
  | 't' :: rest => some ('\t', rest)
  | 'n' :: rest => some ('\n', rest)
  | 'f' :: rest => some ('\x0c', rest)
  | 'r' :: rest => some ('\r', rest)
  | 'e' :: rest => some ('\x1b', rest)
  | '"' :: rest => some ('"', rest)
  | '\\' :: rest => some ('\\', rest)
  | 'x' :: rest => codeEscape? 2 rest
  | 'u' :: rest => codeEscape? 4 rest
  | 'U' :: rest => codeEscape? 8 rest
  | _ => none

/-! ## Strings on one line -/

/-- A literal string after its opening quote. -/
def literal? : List Char → Option (List Char × List Char)
  | [] => none
  | c :: rest =>
    if c = '\'' then some ([], rest)
    else if isPlain c then (literal? rest).map fun (s, rest) => (c :: s, rest)
    else none

/-- A basic string after its opening quote. -/
def basic? : Nat → List Char → Option (List Char × List Char)
  | 0, _ => none
  | _ + 1, [] => none
  | fuel + 1, c :: rest =>
    if c = '"' then some ([], rest)
    else if c = '\\' then
      match escape? rest with
      | none => none
      | some (e, rest) => (basic? fuel rest).map fun (s, rest) => (e :: s, rest)
    else if isPlain c then (basic? fuel rest).map fun (s, rest) => (c :: s, rest)
    else none

/-! ## Strings on many lines -/

/-- What is left after three quotes, and up to two more quotes that belong to the string
that they end. -/
def closing? (quote : Char) : List Char → Option (List Char × List Char)
  | a :: b :: c :: rest =>
    if a = quote ∧ b = quote ∧ c = quote then
      let more := (rest.take 2).takeWhile (· == quote)
      some (more, rest.drop more.length)
    else none
  | _ => none

/-- Characters of a string on many lines: plain ones and ends of lines. -/
def isLineChar (c : Char) (rest : List Char) : Bool :=
  isPlain c || c == '\n' || (c == '\r' && rest.head? == some '\n')

/-- A literal string on many lines after its opening. -/
def longLiteral? : List Char → Option (List Char × List Char)
  | [] => none
  | c :: rest =>
    match closing? '\'' (c :: rest) with
    | some r => some r
    | none =>
      if isLineChar c rest then (longLiteral? rest).map fun (s, rest) => (c :: s, rest)
      else none

/-- Whether blanks up to the end of a line come next. -/
def lineEnds (s : List Char) : Bool := (newline? (s.dropWhile isSpace)).isSome

/-- What is left after blanks and ends of lines. -/
def skipLines (s : List Char) : List Char :=
  match s with
  | '\r' :: '\n' :: rest => skipLines rest
  | c :: rest => if isSpace c || c == '\n' then skipLines rest else c :: rest
  | [] => []

/-- A basic string on many lines after its opening. A backslash at the end of a line joins
it with the next that is not blank. -/
def longBasic? : Nat → List Char → Option (List Char × List Char)
  | 0, _ => none
  | _ + 1, [] => none
  | fuel + 1, c :: rest =>
    match closing? '"' (c :: rest) with
    | some r => some r
    | none =>
      if c = '\\' then
        if lineEnds rest then longBasic? fuel (skipLines rest)
        else
          match escape? rest with
          | none => none
          | some (e, rest) => (longBasic? fuel rest).map fun (s, rest) => (e :: s, rest)
      else if isLineChar c rest then
        (longBasic? fuel rest).map fun (s, rest) => (c :: s, rest)
      else none

/-! ## All strings -/

/-- A string on one line. -/
def shortString? : List Char → Option (List Char × List Char)
  | '"' :: rest => basic? (rest.length + 1) rest
  | '\'' :: rest => literal? rest
  | _ => none

/-- A string. An end of line right after the opening of a long one does not count. -/
def string? : List Char → Option (List Char × List Char)
  | '"' :: '"' :: '"' :: rest =>
    longBasic? (rest.length + 1) ((newline? rest).getD rest)
  | '\'' :: '\'' :: '\'' :: rest => longLiteral? ((newline? rest).getD rest)
  | s => shortString? s

end Permit.Toml
