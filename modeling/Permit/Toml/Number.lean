-- TOML numbers: whole numbers of 64 bits to four bases, and floats. Single underscores may
-- stand between digits.
import Permit.Expression.Literal
import Permit.Toml.Value

namespace Permit.Toml

/-- Digits without the underscores between them. -/
def grouped? (isDigit : Char → Bool) : List Char → Option (List Char)
  | [] => none
  | [c] => if isDigit c then some [c] else none
  | c :: '_' :: rest => if isDigit c then (grouped? isDigit rest).map (c :: ·) else none
  | c :: rest => if isDigit c then (grouped? isDigit rest).map (c :: ·) else none

/-- Decimal digits that start with a zero only if it is alone. -/
def decimal? (s : List Char) : Option (List Char) :=
  match grouped? Char.isDigit s with
  | some ('0' :: _ :: _) => none
  | digits => digits

/-- Whether a whole number has 64 bits with a sign. -/
def isWord (i : Int) : Bool := -0x8000000000000000 ≤ i && i < 0x8000000000000000

/-- Whether a character is a digit to the base. -/
def isDigitOf (base : Nat) (c : Char) : Bool := (Expression.hexValue? c).any (· < base)

/-- The value of digits to the base. -/
def valueOf (base : Nat) (digits : List Char) : Int :=
  digits.foldl (fun n c => base * n + ((Expression.hexValue? c).getD 0 : Nat)) 0

/-- The whole number of digits to the base. -/
def based? (base : Nat) (s : List Char) : Option Int :=
  (grouped? (isDigitOf base) s).map (valueOf base)

/-- A whole number: to base 16, 8 or 2 without a sign, and else decimal. -/
def integer? : List Char → Option Int
  | '0' :: 'x' :: digits => based? 16 digits
  | '0' :: 'o' :: digits => based? 8 digits
  | '0' :: 'b' :: digits => based? 2 digits
  | s =>
    let (neg, digits) := Extended.sign s
    (decimal? digits).map fun digits =>
      if neg then -valueOf 10 digits else valueOf 10 digits

/-- The digits of an exponent with its mark, if the text is nothing but that. -/
def exponent? : List Char → Option (List Char)
  | [] => some []
  | mark :: rest =>
    if mark = 'e' ∨ mark = 'E' then
      let (neg, digits) := Extended.sign rest
      (grouped? Char.isDigit digits).map fun digits =>
        mark :: (if neg then '-' :: digits else digits)
    else none

/-- The digits after a point with it, if there is one, and what follows them. -/
def fraction? : List Char → Option (List Char × List Char)
  | '.' :: rest =>
    let isPart (c : Char) : Bool := c.isDigit || c == '_'
    (grouped? Char.isDigit (rest.takeWhile isPart)).map fun digits =>
      ('.' :: digits, rest.dropWhile isPart)
  | s => some ([], s)

/-- A float without its underscores: digits with a fraction or an exponent. -/
def floatText? (s : List Char) : Option (List Char) := do
  let isPart (c : Char) : Bool := c.isDigit || c == '_'
  let whole ← decimal? (s.takeWhile isPart)
  let (fraction, rest) ← fraction? (s.dropWhile isPart)
  let exponent ← exponent? rest
  if fraction = [] ∧ exponent = [] then none else some (whole ++ fraction ++ exponent)

/-- A float; only the word makes it infinite. -/
def float? (s : List Char) : Option Extended :=
  let (neg, body) := Extended.sign s
  if body = "inf".toList then some (.infinite neg)
  else if body = "nan".toList then some .nan
  else
    match (floatText? body).bind Extended.ofText? with
    | some (.finite x) => some (.finite (x.withSign neg))
    | _ => none

/-- The number that a word spells. -/
def number? (s : List Char) : Option Value :=
  match integer? s with
  | some i => if isWord i then some (.integer i) else none
  | none => (float? s).map .float

end Permit.Toml
