-- Binary64 numbers with the two infinities and the value that is no number, as texts
-- spell them.
import Permit.Decimal.Layout

namespace Permit

/-- A binary64 number, an infinity, or no number. -/
inductive Extended where
  | finite (x : Binary64)
  | infinite (neg : Bool)
  | nan
deriving DecidableEq

namespace Extended

/-- The number nearest to `digits · 10 ^ exponent`, infinite when that is too large. -/
def ofDecimal (neg : Bool) (digits : Nat) (exponent : Int) : Extended :=
  match Binary64.ofDecimal neg digits exponent with
  | some x => .finite x
  | none => .infinite neg

/-- Whether it is one of the two zeros. -/
def isZero : Extended → Bool
  | .finite x => x.m == 0
  | _ => false

/-- The nearest whole number from zero on, a half going up: zero for what is negative or
no number, and `none` for infinity. -/
def roundToNat? : Extended → Option Nat
  | .finite x => some x.roundToInt.toNat
  | .infinite neg => if neg then some 0 else none
  | .nan => some 0

/-! ## Texts -/

/-- All powers of ten are written positionally, and whole numbers without a point. -/
def layout : Decimal.Layout := ⟨fun _ => true, false⟩

/-- The text of a number: a negative zero keeps its sign. -/
def text : Extended → String
  | .finite x => String.ofList (x.write layout)
  | .infinite neg => if neg then "-inf" else "inf"
  | .nan => "NaN"

/-- The sign in front of a text, `+` included, and what follows it. -/
def sign : List Char → Bool × List Char
  | '-' :: rest => (true, rest)
  | '+' :: rest => (false, rest)
  | s => (false, s)

/-- The number of decimal digits. -/
def digitsValue (digits : List Char) : Nat :=
  digits.foldl (fun n c => 10 * n + (c.toNat - '0'.toNat)) 0

/-- The whole number of a text: digits, and perhaps a sign. -/
def wholeOfText? (s : List Char) : Option Int :=
  let (neg, digits) := sign s
  if digits = [] ∨ !digits.all Char.isDigit then none
  else
    let magnitude : Int := digitsValue digits
    some (if neg then -magnitude else magnitude)

/-- The exponent that ends a text: nothing, or `e` with a whole number. -/
def exponentOfText? : List Char → Option Int
  | [] => some 0
  | mark :: rest => if mark = 'e' ∨ mark = 'E' then wholeOfText? rest else none

/-- The number of a text: a word in any case, or digits with a point among them or at
either end, and perhaps an exponent; a sign may stand in front. -/
def ofText? (s : List Char) : Option Extended :=
  let (neg, body) := sign s
  let word := (String.ofList body).toLower
  if word = "inf" ∨ word = "infinity" then some (.infinite neg)
  else if word = "nan" then some .nan
  else
    let whole := body.takeWhile Char.isDigit
    let (decimals, rest) := match body.dropWhile Char.isDigit with
      | '.' :: rest => (rest.takeWhile Char.isDigit, rest.dropWhile Char.isDigit)
      | rest => ([], rest)
    if whole = [] ∧ decimals = [] then none
    else
      (exponentOfText? rest).map fun e =>
        ofDecimal neg (digitsValue (whole ++ decimals)) (e - decimals.length)

end Extended
end Permit
