-- How a binary64 number is written: the shortest digits, laid out either positionally
-- or with a power of ten.
import Permit.Decimal.Shortest

namespace Permit

/-- The decimal digits of a natural number. -/
def natDigits (n : Nat) : List Char := Nat.toDigits 10 n

/-- The decimal digits of a whole number, with a minus sign in front if it is negative. -/
def intDigits (i : Int) : List Char :=
  if i < 0 then '-' :: natDigits i.natAbs else natDigits i.natAbs

namespace Decimal

/-- The choices a format makes: the powers of ten written positionally, and whether a
whole number keeps a `.0`. -/
structure Layout where
  positional : Int → Bool
  pointZero : Bool

/-- Digits with the point after the first `e + 1` of them, for `e` at least -1. -/
def splitAt (layout : Layout) (digits : List Char) (e : Nat) : List Char :=
  if digits.length ≤ e + 1 then
    digits ++ List.replicate (e + 1 - digits.length) '0' ++
      (if layout.pointZero then ['.', '0'] else [])
  else digits.take (e + 1) ++ '.' :: digits.drop (e + 1)

/-- One digit, the others after a point, and the signed power of ten. -/
def withExponent (digits : List Char) (e : Int) : List Char :=
  let fraction := match digits with
    | first :: second :: more => first :: '.' :: second :: more
    | short => short
  fraction ++ 'e' :: (if e < 0 then '-' else '+') :: natDigits e.natAbs

/-- The text of a decimal without its sign. -/
def write (layout : Layout) (d : Decimal) : List Char :=
  let digits := natDigits d.digits
  if layout.positional d.exponent then
    if d.exponent < 0 then
      '0' :: '.' :: List.replicate (d.exponent.natAbs - 1) '0' ++ digits
    else splitAt layout digits d.exponent.toNat
  else withExponent digits d.exponent

end Decimal

/-- The text of a number in a layout; a negative zero keeps its sign. -/
def Binary64.write (layout : Decimal.Layout) (a : Binary64) : List Char :=
  (if a.neg then ['-'] else []) ++ a.shortest.write layout

end Permit
