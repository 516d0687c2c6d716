-- Whole numbers as floats. One that has too many digits for 64 bits is still large when it is
-- rounded to a float, and among the natural numbers what is below zero counts as zero.
import Permit.Decimal.Extended
import Permit.Proofs.Decimal.Rounding

namespace Permit
namespace Binary64

variable {neg : Bool} {num den : Nat} {x : Binary64}

/-- The exponent may be one more than the one that is tried first. -/
theorem ofQuotient_spec (hnum : num ≠ 0) (read : ofQuotient neg num den = some x) :
    x.neg = neg ∧ exponentFor num den ≤ x.q := by
  rw [ofQuotient_of_nearest hnum rfl rfl] at read
  obtain ⟨canonical, same⟩ := Option.dite_none_right_eq_some.1 read
  obtain rfl := Option.some.inj same
  refine ⟨rfl, ?_⟩
  dsimp only
  split <;> omega

/-! ## Signs -/

theorem neg_of_ofQuotient (read : ofQuotient neg num den = some x) : x.neg = neg := by
  by_cases zero : num = 0
  · rw [ofQuotient, if_pos zero] at read
    cases read
    rfl
  · exact (ofQuotient_spec zero read).1

theorem neg_of_ofDecimal {digits : Nat} {exponent : Int}
    (read : ofDecimal neg digits exponent = some x) : x.neg = neg := by
  unfold ofDecimal at read
  dsimp only at read
  split at read
  · cases read
    rfl
  · split at read
    · cases read
    · exact neg_of_ofQuotient read

/-- What has a minus is rounded to zero or to less. -/
theorem roundToInt_of_neg (below : x.neg = true) : x.roundToInt ≤ 0 := by
  unfold roundToInt
  dsimp only
  rw [if_pos below, Int.neg_nonpos_iff]
  exact Int.ediv_nonneg (by omega) (by omega)

/-! ## Sizes -/

theorem le_exponentFor (num den : Nat) :
    (num.log2 : Int) - den.log2 - 53 ≤ exponentFor num den := by
  unfold exponentFor
  dsimp only
  split <;> omega

/-- A float without a fraction is rounded to a number that is no smaller than its significand. -/
theorem le_roundToInt (above : x.neg = false) (whole : 0 ≤ x.q) : (x.m : Int) ≤ x.roundToInt := by
  have scaled : x.m ≤ x.m * Nat.pow 2 x.q.toNat :=
    Nat.le_mul_of_pos_right _ (Nat.pow_pos (by decide))
  unfold roundToInt scale
  rw [if_pos whole, above]
  dsimp only
  rw [if_neg Bool.false_ne_true]
  omega

/-- A whole number past 64 bits has all bits of its significand in front of the point. -/
theorem roundToInt_of_large (large : 2 ^ 63 ≤ num)
    (read : ofQuotient false num 1 = some x) : 0x10000000000000 ≤ x.roundToInt := by
  have nonzero : num ≠ 0 := by omega
  have bits : 63 ≤ num.log2 := (Nat.le_log2 nonzero).2 large
  have one : Nat.log2 1 = 0 := by decide
  have least := (le_exponentFor num 1).trans (ofQuotient_spec nonzero read).2
  rw [one] at least
  have normal : 0x10000000000000 ≤ x.m := x.canonical.2.2.2.resolve_right (by omega)
  have size := le_roundToInt (neg_of_ofQuotient read) (by omega)
  omega

end Binary64

/-! ## Natural numbers -/

namespace Extended

/-- A number with a minus counts as zero, however large it is. -/
theorem roundToNat?_of_neg (n : Nat) (exponent : Int) :
    (ofDecimal true n exponent).roundToNat? = some 0 := by
  unfold ofDecimal
  split
  · next read =>
    have below := Binary64.roundToInt_of_neg (Binary64.neg_of_ofDecimal read)
    exact congrArg some (Int.toNat_of_nonpos below)
  · rfl

/-- A whole number past 64 bits is rounded to a large one or to infinity. -/
theorem roundToNat?_of_large {n k : Nat} (large : 2 ^ 63 ≤ n)
    (rounded : (ofDecimal false n 0).roundToNat? = some k) : 0x10000000000000 ≤ k := by
  unfold ofDecimal at rounded
  split at rounded
  · next x read =>
    cases rounded
    rw [Binary64.ofDecimal, if_neg (by omega)] at read
    split at read
    · cases read
    · rw [Binary64.scale, if_pos (Int.le_refl 0)] at read
      have size := Binary64.roundToInt_of_large (by simpa using large) read
      omega
  · cases rounded

end Extended
end Permit
