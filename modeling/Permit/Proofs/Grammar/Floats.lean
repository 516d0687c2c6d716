-- A printed float is a number of the grammar, and the one that is read is the float itself:
-- the layout keeps the value of the shortest decimal, which is rounded back to the float.
import Permit.Json.Printer
import Permit.Proofs.Decimal.Shortest
import Permit.Proofs.Grammar.Words

namespace Permit.Expression.Grammar

open Json

/-! ## Digits -/

theorem digits_natDigits (n : Nat) : Digits (natDigits n) :=
  ⟨Nat.toDigits_ne_nil, fun _ hc => Nat.isDigit_of_mem_toDigits (by decide) (by decide) hc⟩

theorem digitsValue_natDigits (n : Nat) : digitsValue (natDigits n) = n :=
  Nat.ofDigitChars_ten_toDigits

theorem digitsValue_append (l m : List Char) :
    digitsValue (l ++ m) = 10 ^ m.length * digitsValue l + digitsValue m := by
  have append : digitsValue (l ++ m) = Nat.ofDigitChars 10 m (digitsValue l) :=
    Nat.ofDigitChars_append 0
  rw [append, Nat.ofDigitChars_eq_ofDigitChars_zero]
  rfl

theorem digitsValue_zeros (n : Nat) : digitsValue (List.replicate n '0') = 0 := by
  have zeros : Nat.ofDigitChars 10 (List.replicate n '0') 0 = 10 ^ n * 0 :=
    Nat.ofDigitChars_replicate_zero
  exact zeros

theorem digits_append {l m : List Char} (first : Digits l)
    (more : ∀ c ∈ m, c.isDigit = true) : Digits (l ++ m) := by
  refine ⟨by simp [first.1], fun c hc => ?_⟩
  rcases List.mem_append.1 hc with hc | hc
  · exact first.2 c hc
  · exact more c hc

theorem isDigit_zeros (n : Nat) : ∀ c ∈ List.replicate n '0', c.isDigit = true := by
  intro c hc
  rw [(List.mem_replicate.1 hc).2]
  rfl

/-! ## Layouts -/

/-- The text of a number with a point or an exponent, and its value. -/
def Writes (text : List Char) (value : ℚ) : Prop :=
  ∃ digits fraction decimals exponent power, Digits digits ∧ Fraction fraction decimals ∧
    Exponent exponent power ∧ (fraction ≠ [] ∨ exponent ≠ []) ∧
    text = digits ++ fraction ++ exponent ∧
    (digitsValue (digits ++ decimals) : ℚ) * 10 ^ (power - decimals.length) = value

/-- The value of a decimal in scientific form. -/
def decimalValue (d : Decimal) : ℚ :=
  d.digits * 10 ^ (d.exponent + 1 - ((natDigits d.digits).length : Int))

/-- With the digits of the decimal only the power of ten matters. -/
theorem value_of_digits {d : Decimal} {n : Nat} {power : Int} (digits : n = d.digits)
    (exponent : power = d.exponent + 1 - ((natDigits d.digits).length : Int)) :
    (n : ℚ) * 10 ^ power = decimalValue d := by
  rw [digits, exponent]
  rfl

theorem writes_small {d : Decimal} (small : d.exponent < 0) :
    Writes ('0' :: '.' :: List.replicate (d.exponent.natAbs - 1) '0' ++ natDigits d.digits)
      (decimalValue d) := by
  have decimals : Digits (List.replicate (d.exponent.natAbs - 1) '0' ++ natDigits d.digits) := by
    refine ⟨by simp [(digits_natDigits d.digits).1], fun c hc => ?_⟩
    rcases List.mem_append.1 hc with hc | hc
    · exact isDigit_zeros _ c hc
    · exact (digits_natDigits d.digits).2 c hc
  have value : digitsValue (['0'] ++ (List.replicate (d.exponent.natAbs - 1) '0'
      ++ natDigits d.digits)) = d.digits := by
    have zero : digitsValue ['0'] = 0 := rfl
    rw [digitsValue_append, digitsValue_append, digitsValue_zeros, digitsValue_natDigits, zero]
    omega
  refine ⟨['0'], _, _, [], 0, ⟨by simp, by simp⟩, .present decimals, .absent, .inl (by simp),
    by simp, value_of_digits value ?_⟩
  rw [List.length_append, List.length_replicate]
  omega

theorem writes_splitAt {layout : Decimal.Layout} (pointZero : layout.pointZero = true)
    {d : Decimal} (large : 0 ≤ d.exponent) :
    Writes (Decimal.splitAt layout (natDigits d.digits) d.exponent.toNat) (decimalValue d) := by
  have all := (digits_natDigits d.digits).2
  unfold Decimal.splitAt
  split
  · next short =>
    refine ⟨natDigits d.digits
        ++ List.replicate (d.exponent.toNat + 1 - (natDigits d.digits).length) '0',
      ['.', '0'], ['0'], [], 0, digits_append (digits_natDigits _) (isDigit_zeros _),
      .present ⟨by simp, by simp⟩, .absent, .inl (by simp), by simp, ?_⟩
    have zero : digitsValue ['0'] = 0 := rfl
    have power : d.exponent + 1 - ((natDigits d.digits).length : Int)
        = ((d.exponent.toNat + 1 - (natDigits d.digits).length : Nat) : Int) := by omega
    rw [digitsValue_append, digitsValue_append, digitsValue_zeros, digitsValue_natDigits, zero,
      decimalValue, power, List.length_replicate, zpow_natCast]
    norm_num
    ring
  · next long =>
    refine ⟨(natDigits d.digits).take (d.exponent.toNat + 1), _,
      (natDigits d.digits).drop (d.exponent.toNat + 1), [], 0, ?_, .present ?_, .absent,
      .inl (by simp), by simp, value_of_digits ?_ ?_⟩
    · refine ⟨?_, fun c hc => all c (List.mem_of_mem_take hc)⟩
      rw [← List.length_pos_iff, List.length_take]
      omega
    · refine ⟨?_, fun c hc => all c (List.mem_of_mem_drop hc)⟩
      rw [← List.length_pos_iff, List.length_drop]
      omega
    · rw [List.take_append_drop, digitsValue_natDigits]
    · rw [List.length_drop]
      omega

theorem exponent_intDigits (e : Int) :
    Exponent ('e' :: ([if e < 0 then '-' else '+'] ++ natDigits e.natAbs)) e := by
  split
  · next negative =>
    have exponent := Exponent.present (.inl rfl) .minus (digits_natDigits e.natAbs)
    rw [digitsValue_natDigits, signed, if_pos rfl] at exponent
    rwa [show -(e.natAbs : Int) = e by omega] at exponent
  · next positive =>
    have exponent := Exponent.present (.inl rfl) .plus (digits_natDigits e.natAbs)
    rw [digitsValue_natDigits, signed, if_neg (by decide)] at exponent
    rwa [show (e.natAbs : Int) = e by omega] at exponent

theorem writes_withExponent (d : Decimal) :
    Writes (Decimal.withExponent (natDigits d.digits) d.exponent) (decimalValue d) := by
  have exponent := exponent_intDigits d.exponent
  have all := digits_natDigits d.digits
  have value := digitsValue_natDigits d.digits
  unfold Decimal.withExponent
  rcases found : natDigits d.digits with _ | ⟨first, _ | ⟨second, more⟩⟩
  · exact absurd found all.1
  · rw [found] at all value
    refine ⟨[first], [], [], _, _, all, .absent, exponent, .inr (by simp), by simp,
      value_of_digits (by simpa using value) ?_⟩
    rw [found]
    simp
  · rw [found] at all value
    refine ⟨[first], '.' :: second :: more, second :: more, _, _, ⟨by simp, ?_⟩,
      .present ⟨by simp, ?_⟩, exponent, .inl (by simp), by simp,
      value_of_digits (by simpa using value) ?_⟩
    · exact fun c hc => all.2 c (by simp [List.mem_singleton.1 hc])
    · exact fun c hc => all.2 c (List.mem_cons_of_mem first hc)
    · rw [found]
      simp only [List.length_cons]
      omega

/-- Each layout keeps the value. -/
theorem writes_write {layout : Decimal.Layout} (pointZero : layout.pointZero = true)
    (d : Decimal) : Writes (d.write layout) (decimalValue d) := by
  unfold Decimal.write
  dsimp only
  split
  · split
    · next small => exact writes_small small
    · next large => exact writes_splitAt pointZero (Int.not_lt.1 large)
  · exact writes_withExponent d

/-! ## Floats -/

/-- The decimal of a float is read as the float. -/
theorem ofDecimal_shortest (x : Binary64) {n : Nat} {power : Int}
    (value : (n : ℚ) * 10 ^ power = decimalValue x.shortest) :
    Binary64.ofDecimal x.neg n power = some x := by
  by_cases zero : x.m = 0
  · have nothing : x.shortest = ⟨0, 0⟩ := if_pos zero
    have unit : (10 : ℚ) ^ power ≠ 0 := zpow_ne_zero _ (by norm_num)
    have hn : n = 0 := by
      rw [nothing, decimalValue, Nat.cast_zero, zero_mul] at value
      exact_mod_cast (mul_eq_zero.1 value).resolve_right unit
    obtain ⟨neg, m, q, canonical⟩ := x
    dsimp only at zero
    subst zero
    obtain rfl : q = -1074 := canonical.2.2.2.resolve_left (by decide)
    rw [hn]
    rfl
  · obtain ⟨digits, inside⟩ := x.shortest_inside zero
    have count : ((natDigits x.shortest.digits).length : Int)
        = Binary64.digitCount x.shortest.digits := by
      unfold Binary64.digitCount
      rw [if_neg digits]
      rfl
    rw [← count, ← decimalValue, ← value] at inside
    exact Binary64.ofDecimal_eq x zero inside

/-- The text of a float spells the float. -/
theorem numeral_float (x : Binary64) (r : List Char) :
    Numeral (x.write floatLayout ++ r) (.float x) r := by
  have written : Writes (x.shortest.write floatLayout) (decimalValue x.shortest) :=
    writes_write rfl x.shortest
  obtain ⟨digits, fraction, decimals, exponent, power, isDigits, isFraction, isExponent, there,
    text, value⟩ := written
  have finite := ofDecimal_shortest x value
  have signs : Minus (if x.neg then ['-'] else []) x.neg := by
    cases x.neg
    · exact .absent
    · exact .present
  have float := Numeral.float (r := r) signs isDigits isFraction isExponent there finite
  unfold Binary64.write
  rw [text]
  simpa using float

end Permit.Expression.Grammar
