-- The shortest decimal that reads back as a given binary64 number: of the decimals
-- inside its rounding interval, one with the fewest digits, and of those the nearest.
import Permit.Decimal.Binary64

namespace Permit

/-- A decimal in scientific form: the digits of a natural number without trailing
zeros, and the power of ten of the first digit. -/
structure Decimal where
  digits : Nat
  exponent : Int
deriving DecidableEq, Repr

namespace Binary64

/-! ## The rounding interval -/

/-- Twice the bounds of the interval that rounds to `m · 2 ^ q`, in units of half of
`2 ^ q`: half a step each way, but only a quarter step down to a smaller exponent. -/
def interval (m : Nat) (q : Int) : Nat × Nat :=
  (if m = 0x10000000000000 ∧ -1074 < q then 4 * m - 1 else 4 * m - 2, 4 * m + 2)

/-- Whether `n / d` times `2 ^ (q - 2)` lies in the interval; the ends belong to it when
the significand is even. -/
def insideInterval (m : Nat) (q : Int) (n d : Nat) : Bool :=
  let (low, high) := interval m q
  if m % 2 = 0 then low * d ≤ n && n ≤ high * d else low * d < n && n < high * d

/-- The power of ten at or below `num / den`, for a positive value. -/
def decimalExponent (num den : Nat) : Int :=
  if den ≤ num then (digitCount (num / den) : Int) - 1
  else
    let up := den / num
    let k := digitCount up
    if num * Nat.pow 10 (k - 1) ≥ den then -((k : Int) - 1) else -(k : Int)

/-- The neighbour of the number on the grid of `n`-digit decimals that reads back as it,
the nearer if both do; a tie goes to the even digit. -/
def gridNeighbour? (a : Binary64) (e : Int) (n : Nat) : Option Nat :=
  let step : Int := n - 1 - e
  let (num, den) := scale 2 a.m 1 a.q
  let (num, den) := scale 10 num den step
  let below := num / den
  let reads (c : Nat) : Bool :=
    let (cn, cd) := scale 10 c 1 (-step)
    let (cn, cd) := scale 2 cn cd (2 - a.q)
    insideInterval a.m a.q cn cd
  let belowReads := reads below
  let aboveReads := reads (below + 1)
  if belowReads && aboveReads then some (nearest num den)
  else if belowReads then some below
  else if aboveReads then some (below + 1)
  else none

/-- The digits without their trailing zeros, and how many were dropped. -/
def dropZeros (fuel n : Nat) : Nat :=
  match fuel with
  | 0 => n
  | fuel + 1 => if n ≠ 0 ∧ n % 10 = 0 then dropZeros fuel (n / 10) else n

/-- The shortest decimal of a number, without its sign. Seventeen digits always do. -/
def shortest (a : Binary64) : Decimal :=
  if a.m = 0 then ⟨0, 0⟩
  else
    let (num, den) := scale 2 a.m 1 a.q
    let e := decimalExponent num den
    let grid (i : Nat) : Option (Nat × Nat) := (gridNeighbour? a e (i + 1)).map (i + 1, ·)
    match (List.range 17).findSome? grid with
    | some (n, digits) =>
      let e := if digitCount digits = n then e else e + 1
      ⟨dropZeros n digits, e⟩
    | none => ⟨a.m, e⟩

end Binary64
end Permit
