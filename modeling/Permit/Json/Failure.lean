-- Why JSON is not read: the text breaks a requirement of the format at some place, or what it
-- spells has not the shape that is wanted.
import Permit.Json.Printer
import Permit.Text.Quoted
import Permit.Text.Utf8

namespace Permit.Json

open Text

/-! ## Faults of the text -/

/-- The requirements of the format. -/
inductive Requirement where
  | unfinishedValue
  | unfinishedList
  | unfinishedObject
  | unfinishedString
  | value
  | word
  | colon
  | listSeparator
  | objectSeparator
  | noTrailingComma
  | nothingAfter
  | stringKey
  | number
  | numberRange
  | escape
  | surrogatePair
  | secondSurrogate
  | noControlCharacter
  | unicode
  | nesting
deriving DecidableEq, Repr

/-- What is said about a broken requirement. -/
def Requirement.message : Requirement → String
  | .unfinishedValue => "EOF while parsing a value"
  | .unfinishedList => "EOF while parsing a list"
  | .unfinishedObject => "EOF while parsing an object"
  | .unfinishedString => "EOF while parsing a string"
  | .value => "expected value"
  | .word => "expected ident"
  | .colon => "expected \x60:\x60"
  | .listSeparator => "expected \x60,\x60 or \x60]\x60"
  | .objectSeparator => "expected \x60,\x60 or \x60\x7d\x60"
  | .noTrailingComma => "trailing comma"
  | .nothingAfter => "trailing characters"
  | .stringKey => "key must be a string"
  | .number => "invalid number"
  | .numberRange => "number out of range"
  | .escape => "invalid escape"
  | .surrogatePair => "lone leading surrogate in hex escape"
  | .secondSurrogate => "unexpected end of hex escape"
  | .noControlCharacter =>
    "control character (\\u0000-\\u001F) found while parsing a string"
  | .unicode => "invalid unicode code point"
  | .nesting => "recursion limit exceeded"

/-- A broken requirement, and the number of bytes that were not read when it showed. -/
structure Fault where
  broken : Requirement
  left : Nat
deriving DecidableEq, Repr

/-- The line and the column after the first `n` bytes of a text, both counted from the
given ones; a column counts bytes. -/
def placeAfter (line column : Nat) : List Glyph → Nat → Nat × Nat
  | [], _ => (line, column)
  | g :: rest, n =>
    if n = 0 then (line, column)
    else if g = .char '\n' then placeAfter (line + 1) 0 rest (n - 1)
    else if n ≤ g.size then (line, column + n)
    else placeAfter line (column + g.size) rest (n - g.size)

/-- The message of a fault in a text, with its place. -/
def Fault.message (f : Fault) (text : List Glyph) : String :=
  let (line, column) := placeAfter 1 0 text (byteCount text - f.left)
  f.broken.message ++ " at line " ++ toString line ++ " column " ++ toString column

/-! ## Mismatches of shape -/

/-- What was found where something else was wanted. -/
inductive Found where
  | null
  | bool (b : Bool)
  | number (n : Number)
  | string (s : String)
  | sequence
  | map
  | unitVariant
deriving DecidableEq

/-- How a finding is named. -/
def Found.text : Found → String
  | .null => "null"
  | .bool b => "boolean \x60" ++ (if b then "true" else "false") ++ "\x60"
  | .number (.int i _) => "integer \x60" ++ String.ofList (intDigits i) ++ "\x60"
  | .number (.float x) => "floating point \x60" ++ String.ofList (x.write floatLayout) ++ "\x60"
  | .string s => "string " ++ quoted s
  | .sequence => "sequence"
  | .map => "map"
  | .unitVariant => "unit variant"

/-- How a value has not the shape that is wanted. -/
inductive Mismatch where
  | wrongType (found : Found) (wanted : String)
  | wrongValue (found : Found) (wanted : String)
  | wrongLength (length : Nat) (wanted : String)
  | missingField (name : String)
  | duplicateField (name : String)
  | unknownField (name : String) (known : List String)
  | unknownVariant (name : String) (known : List String)
  | noVariant (choice : String)
  | rejected (reason : String)
deriving DecidableEq

/-- The names that would have been right. -/
def oneOf (names : List String) : String :=
  let ticked := names.map fun n => "\x60" ++ n ++ "\x60"
  match ticked with
  | [a] => a
  | [a, b] => a ++ " or " ++ b
  | more => "one of " ++ ", ".intercalate more

/-- What is said about a mismatch. -/
def Mismatch.message : Mismatch → String
  | .wrongType found wanted => "invalid type: " ++ found.text ++ ", expected " ++ wanted
  | .wrongValue found wanted => "invalid value: " ++ found.text ++ ", expected " ++ wanted
  | .wrongLength n wanted => "invalid length " ++ toString n ++ ", expected " ++ wanted
  | .missingField name => "missing field \x60" ++ name ++ "\x60"
  | .duplicateField name => "duplicate field \x60" ++ name ++ "\x60"
  | .unknownField name known =>
    "unknown field \x60" ++ name ++ "\x60, expected " ++ oneOf known
  | .unknownVariant name known =>
    "unknown variant \x60" ++ name ++ "\x60, expected " ++ oneOf known
  | .noVariant choice => "data did not match any variant of untagged enum " ++ choice
  | .rejected reason => reason

/-! ## Failures -/

/-- Why a text or a value is not read. -/
inductive Failure where
  | fault (f : Fault)
  | mismatch (m : Mismatch)
deriving DecidableEq

/-- The message of a failure to read a text. A mismatch has no place. -/
def Failure.message (text : List Glyph) : Failure → String
  | .fault f => f.message text
  | .mismatch m => m.message

end Permit.Json
