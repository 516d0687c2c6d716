-- The literals of the text form: strings, numbers, arrays, objects and the three words.
-- Arrays and objects nest up to a budget.
import Permit.Expression.Failure
import Permit.Json.Value

namespace Permit.Expression

open Json

/-! ## Strings -/

/-- The value of a hexadecimal digit in either case. -/
def hexValue? (c : Char) : Option Nat :=
  if '0' ≤ c ∧ c ≤ '9' then some (c.toNat - '0'.toNat)
  else if 'a' ≤ c ∧ c ≤ 'f' then some (c.toNat - 'a'.toNat + 10)
  else if 'A' ≤ c ∧ c ≤ 'F' then some (c.toNat - 'A'.toNat + 10)
  else none

/-- The number of four hexadecimal digits. -/
def hexFour : List Char → Parsed Nat
  | a :: b :: c :: d :: rest =>
    match hexValue? a, hexValue? b, hexValue? c, hexValue? d with
    | some a, some b, some c, some d => .ok (((a * 16 + b) * 16 + c) * 16 + d, rest)
    | _, _, _, _ => stop (a :: b :: c :: d :: rest)
  | s => stop s

/-- Whether a code is the first half of a surrogate pair. -/
def isHighSurrogate (code : Nat) : Bool := 0xD800 ≤ code && code < 0xDC00

/-- Whether a code is the second half of a surrogate pair. -/
def isLowSurrogate (code : Nat) : Bool := 0xDC00 ≤ code && code < 0xE000

/-- The character of a surrogate pair. -/
def joinSurrogates (high low : Nat) : Char :=
  Char.ofNat (0x10000 + (high - 0xD800) * 0x400 + (low - 0xDC00))

/-- The character after `\u`: four digits, or two halves of a surrogate pair. -/
def unicodeEscape (s : List Char) : Parsed Char :=
  match hexFour s with
  | .error f => .error f
  | .ok (code, rest) =>
    if isHighSurrogate code then
      match rest with
      | '\\' :: 'u' :: afterMark =>
        match hexFour afterMark with
        | .error f => .error f
        | .ok (low, rest) =>
          if isLowSurrogate low then .ok (joinSurrogates code low, rest) else abort rest
      | rest => stop rest
    else if isLowSurrogate code then abort rest
    else .ok (Char.ofNat code, rest)

/-- The character that a letter after a backslash stands for. -/
def shortEscape? : Char → Option Char
  | '"' => some '"'
  | '\\' => some '\\'
  | '/' => some '/'
  | 'n' => some '\n'
  | 't' => some '\t'
  | 'r' => some '\r'
  | 'b' => some '\x08'
  | 'f' => some '\x0c'
  | _ => none

/-- The characters up to the closing quote. -/
def stringBody : Nat → List Char → Parsed (List Char)
  | 0, s => stop s
  | _ + 1, [] => stop []
  | _ + 1, '"' :: rest => .ok ([], rest)
  | _ + 1, ['\\'] => stop []
  | fuel + 1, '\\' :: 'u' :: rest =>
    match unicodeEscape rest with
    | .error f => .error f
    | .ok (c, rest) => (stringBody fuel rest).map (c :: ·)
  | fuel + 1, '\\' :: letter :: rest =>
    match shortEscape? letter with
    | none => stop rest
    | some c => (stringBody fuel rest).map (c :: ·)
  | fuel + 1, c :: rest => (stringBody fuel rest).map (c :: ·)

/-- A string in quotes. Once the first quote is read, the string must end. -/
def string : List Char → Parsed String
  | '"' :: rest =>
    (((stringBody (rest.length + 1) rest).map String.ofList).commit).expecting .terminatedString
  | s => (stop s : Parsed String).expecting .terminatedString

/-! ## Numbers -/

/-- The value of decimal digits. -/
def digitsValue (digits : List Char) : Nat :=
  digits.foldl (fun n c => 10 * n + (c.toNat - '0'.toNat)) 0

/-- The digits after a point, if there are any. -/
def fraction? : List Char → Option (List Char × List Char)
  | '.' :: rest =>
    let digits := rest.takeWhile Char.isDigit
    if digits = [] then none else some (digits, rest.dropWhile Char.isDigit)
  | _ => none

/-- The exponent after `e` or `E`, if it has a digit. -/
def exponent? : List Char → Option (Int × List Char)
  | mark :: rest =>
    if mark = 'e' ∨ mark = 'E' then
      let (negative, rest) := match rest with
        | '-' :: rest => (true, rest)
        | '+' :: rest => (false, rest)
        | rest => (false, rest)
      let digits := rest.takeWhile Char.isDigit
      if digits = [] then none
      else
        let magnitude : Int := digitsValue digits
        some (if negative then -magnitude else magnitude, rest.dropWhile Char.isDigit)
    else none
  | [] => none

/-- A number. Digits alone are a whole number and must be one of 64 bits; a fraction or an
exponent makes it the nearest float, which must be finite. -/
def number (s : List Char) : Parsed Number :=
  let (negative, unsigned) := match s with
    | '-' :: rest => (true, rest)
    | s => (false, s)
  let digits := unsigned.takeWhile Char.isDigit
  let rest := unsigned.dropWhile Char.isDigit
  if digits = [] then stop unsigned
  else
    match fraction? rest, exponent? ((fraction? rest).elim rest Prod.snd) with
    | none, none =>
      let magnitude : Int := digitsValue digits
      match Number.int? (if negative then -magnitude else magnitude) with
      | some n => .ok (n, rest)
      | none => abort rest
    | fraction, exponent =>
      let decimals := fraction.elim [] Prod.fst
      let rest := exponent.elim (fraction.elim rest Prod.snd) Prod.snd
      let power := exponent.elim 0 Prod.fst - decimals.length
      match Binary64.ofDecimal negative (digitsValue (digits ++ decimals)) power with
      | some x => .ok (.float x, rest)
      | none => abort rest

/-! ## Arrays, objects and words -/

/-- Nesting beyond the budget. -/
def tooDeep {α : Type} (rest : List Char) : Parsed α :=
  (abort rest : Parsed α).expecting .shallowNesting

/-- The character that ends a list of items, which must follow. -/
def closing (c : Char) (s : List Char) : Parsed Unit := (char c (skipBlanks s)).commit

/-- A name and its value in an object. -/
def member (value : List Char → Parsed Value) (s : List Char) : Parsed (String × Value) :=
  match string s with
  | .error f => .error f
  | .ok (key, rest) =>
    match (char ':' (skipBlanks rest)).commit with
    | .error f => .error f
    | .ok (_, rest) => ((value (skipBlanks rest)).commit).map (key, ·)

/-- The items of an array after its bracket. -/
def arrayBody (item : List Char → Parsed Value) (s : List Char) : Parsed Value :=
  match separated comma item (skipBlanks s) with
  | .error f => .error f
  | .ok (items, rest) => (closing ']' rest).map fun _ => .arr items

/-- The members of an object after its brace. The later of two with one name stays. -/
def objectBody (value : List Char → Parsed Value) (s : List Char) : Parsed Value :=
  match separated comma (member value) (skipBlanks s) with
  | .error f => .error f
  | .ok (members, rest) => (closing '}' rest).map fun _ => .obj (Value.sortMembers members)

/-- One of the three words. -/
def wordLiteral? (s : List Char) : Option (Value × List Char) :=
  match word? "null".toList s with
  | some rest => some (.null, rest)
  | none =>
    match word? "true".toList s with
    | some rest => some (.bool true, rest)
    | none => (word? "false".toList s).map (.bool false, ·)

/-- A literal, told from the others by how it starts; arrays and objects nest at most
`budget` deep. -/
def literal : Nat → List Char → Parsed Value
  | budget, s =>
    Parsed.expecting .literal <|
      ((string s).map Value.str).orElse fun _ =>
      match wordLiteral? s with
      | some r => .ok r
      | none =>
        ((number s).map Value.num).orElse fun _ =>
        match s, budget with
        | '[' :: rest, 0 => tooDeep rest
        | '[' :: rest, budget + 1 => arrayBody (literal budget) rest
        | '{' :: rest, 0 => tooDeep rest
        | '{' :: rest, budget + 1 => objectBody (literal budget) rest
        | s, _ => stop s

end Permit.Expression
