-- Binary floating point with 53 significant bits, as exact arithmetic on natural
-- numbers: a quotient is rounded to the nearest such number, a tie to the even one.

namespace Permit

/-! ## The numbers -/

/-- The significands and exponents a binary64 number may have: 53 bits, and all of
them used unless the exponent is the smallest. -/
def Binary64.Canonical (m : Nat) (q : Int) : Prop :=
  m < 0x20000000000000 ∧ -1074 ≤ q ∧ q ≤ 971 ∧ (0x10000000000000 ≤ m ∨ q = -1074)

instance (m : Nat) (q : Int) : Decidable (Binary64.Canonical m q) :=
  inferInstanceAs (Decidable (_ ∧ _ ∧ _ ∧ _))

/-- A finite binary64 number: `m · 2 ^ q`, below zero when `neg`. Zero has both signs. -/
structure Binary64 where
  neg : Bool
  m : Nat
  q : Int
  canonical : Binary64.Canonical m q
deriving DecidableEq

namespace Binary64

/-- Zero with the given sign. -/
def zero (neg : Bool) : Binary64 := ⟨neg, 0, -1074, by decide⟩

instance : Inhabited Binary64 := ⟨zero false⟩

/-- Equality of numbers: the two zeros are one number. -/
def same (a b : Binary64) : Bool :=
  (a.m == 0 && b.m == 0) || (a.neg == b.neg && a.m == b.m && a.q == b.q)

/-! ## Rounding -/

/-- The whole number nearest to `num / den`, the even one of two. -/
def nearest (num den : Nat) : Nat :=
  let floor := num / den
  let twice := 2 * (num % den)
  if twice < den then floor
  else if den < twice then floor + 1
  else if floor % 2 = 0 then floor
  else floor + 1

/-- `num / den · base ^ shift` as a fraction. -/
def scale (base num den : Nat) (shift : Int) : Nat × Nat :=
  if 0 ≤ shift then (num * Nat.pow base shift.toNat, den)
  else (num, den * Nat.pow base (-shift).toNat)

/-- The least exponent at which `num / den` has at most 53 bits before the point. -/
def exponentFor (num den : Nat) : Int :=
  let low := max (-1074) ((Nat.log2 num : Int) - Nat.log2 den - 53)
  let (n, d) := scale 2 num den (-low)
  if n / d < 0x20000000000000 then low else low + 1

/-- The binary64 number nearest to `num / den`, a tie going to the even significand.
`none` when it would be too large. -/
def ofQuotient (neg : Bool) (num den : Nat) : Option Binary64 :=
  if num = 0 then some (zero neg)
  else
    let q := exponentFor num den
    let (n, d) := scale 2 num den (-q)
    let m := nearest n d
    let (m, q) := if m = 0x20000000000000 then (0x10000000000000, q + 1) else (m, q)
    if h : Canonical m q then some ⟨neg, m, q, h⟩ else none

/-- The number of decimal digits of `n`, with none for zero. -/
def digitCount (n : Nat) : Nat :=
  if n = 0 then 0 else (Nat.toDigits 10 n).length

/-- The binary64 number nearest to `digits · 10 ^ exponent`. A value below `10 ^ -400`
is nearer to zero than to any other, and one from `10 ^ 310` on is too large. -/
def ofDecimal (neg : Bool) (digits : Nat) (exponent : Int) : Option Binary64 :=
  let magnitude := exponent + digitCount digits
  if digits = 0 ∨ magnitude < -400 then some (zero neg)
  else if 311 < magnitude then none
  else
    let (n, d) := scale 10 digits 1 exponent
    ofQuotient neg n d

/-! ## Arithmetic -/

/-- The product, rounded. -/
def mul (a b : Binary64) : Option Binary64 :=
  let (n, d) := scale 2 (a.m * b.m) 1 (a.q + b.q)
  ofQuotient (a.neg != b.neg) n d

/-- The quotient, rounded; `none` also for a division by zero. -/
def div (a b : Binary64) : Option Binary64 :=
  if b.m = 0 then none
  else
    let (n, d) := scale 2 a.m b.m (a.q - b.q)
    ofQuotient (a.neg != b.neg) n d

/-- The same magnitude with the given sign. -/
def withSign (a : Binary64) (neg : Bool) : Binary64 := { a with neg }

/-- The nearest whole number, a half going away from zero. -/
def roundToInt (a : Binary64) : Int :=
  let (n, d) := scale 2 a.m 1 a.q
  let magnitude : Int := (2 * n + d) / (2 * d)
  if a.neg then -magnitude else magnitude

end Binary64
end Permit
