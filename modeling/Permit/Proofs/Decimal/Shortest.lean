-- The shortest decimal of a float is inside the interval that rounds to it; seventeen digits
-- always reach into the interval.
import Mathlib.Tactic.LinearCombination
import Permit.Proofs.Decimal.Rounding

namespace Permit.Binary64

/-! ## The power of ten -/

theorem digitCount_eq {n k : Nat} (low : 10 ^ k ≤ n) (high : n < 10 ^ (k + 1)) :
    digitCount n = k + 1 := by
  have nonzero : n ≠ 0 := by
    rintro rfl
    have := Nat.pow_pos (n := k) (show 0 < 10 by decide)
    omega
  obtain ⟨positive, low', high'⟩ := digitCount_bounds nonzero
  have ten : 1 < 10 := by decide
  have first := (Nat.pow_lt_pow_iff_right ten).1 (low.trans_lt high')
  have second := (Nat.pow_lt_pow_iff_right ten).1 (low'.trans_lt high)
  omega

/-- The whole part of a quotient is at most one below it. -/
theorem whole_bounds (num : Nat) {den : Nat} (hden : den ≠ 0) :
    ((num / den : Nat) : ℚ) ≤ num / den ∧ (num / den : ℚ) < (num / den : Nat) + 1 := by
  have denPos : (0 : ℚ) < den := by exact_mod_cast Nat.pos_of_ne_zero hden
  rw [le_div_iff₀ denPos, div_lt_iff₀ denPos]
  constructor
  · exact_mod_cast Nat.div_mul_le_self num den
  · exact_mod_cast (Nat.div_lt_iff_lt_mul (Nat.pos_of_ne_zero hden)).1 (Nat.lt_succ_self _)

/-- The power of ten at or below a quotient. -/
theorem decimalExponent_bounds {num den : Nat} (hnum : num ≠ 0) (hden : den ≠ 0) :
    (10 : ℚ) ^ decimalExponent num den ≤ num / den ∧
      (num / den : ℚ) < 10 ^ (decimalExponent num den + 1) := by
  have numPos : (0 : ℚ) < num := by exact_mod_cast Nat.pos_of_ne_zero hnum
  have denPos : (0 : ℚ) < den := by exact_mod_cast Nat.pos_of_ne_zero hden
  have natural (k : Nat) (h : 0 < k) : ((k : Int) - 1) = ((k - 1 : Nat) : Int) := by omega
  unfold decimalExponent
  split
  · next large =>
    have whole : num / den ≠ 0 := (Nat.div_pos large (Nat.pos_of_ne_zero hden)).ne'
    obtain ⟨positive, low, high⟩ := digitCount_bounds whole
    obtain ⟨below, above⟩ := whole_bounds num hden
    rw [sub_add_cancel, natural _ positive, zpow_natCast, zpow_natCast]
    constructor
    · exact le_trans (by exact_mod_cast low) below
    · exact above.trans_le (by exact_mod_cast high)
  · next small =>
    have whole : den / num ≠ 0 := (Nat.div_pos (by omega) (Nat.pos_of_ne_zero hnum)).ne'
    obtain ⟨positive, low, high⟩ := digitCount_bounds whole
    obtain ⟨below, above⟩ := whole_bounds den hnum
    dsimp only
    generalize digitCount (den / num) = k at *
    have low' : (10 : ℚ) ^ (k - 1) ≤ den / num := le_trans (by exact_mod_cast low) below
    have high' : (den / num : ℚ) < 10 ^ k := above.trans_le (by exact_mod_cast high)
    rw [le_div_iff₀ numPos] at low'
    rw [div_lt_iff₀ numPos] at high'
    split
    · next exact =>
      have exact : (den : ℚ) ≤ num * 10 ^ (k - 1) := by exact_mod_cast exact
      have unit : (0 : ℚ) < 10 ^ (k - 1) := by positivity
      rw [natural k positive, zpow_add_one₀ (by norm_num), zpow_neg, zpow_natCast]
      constructor
      · rw [inv_eq_one_div, div_le_div_iff₀ unit denPos]
        linarith
      · rw [div_lt_iff₀ denPos, mul_assoc, inv_mul_eq_div, lt_div_iff₀ unit]
        linarith
    · next other =>
      have other : (num * 10 ^ (k - 1) : ℚ) < den := by exact_mod_cast not_le.1 other
      have lower : -(k : Int) + 1 = -((k - 1 : Nat) : Int) := by omega
      rw [lower, zpow_neg, zpow_neg, zpow_natCast, zpow_natCast]
      constructor
      · rw [inv_eq_one_div, div_le_div_iff₀ (by positivity) denPos]
        linarith
      · rw [inv_eq_one_div, div_lt_div_iff₀ denPos (by positivity)]
        linarith

/-- The whole number nearest to a fraction is one of the two around it. -/
theorem nearest_cases (num den : Nat) :
    nearest num den = num / den ∨ nearest num den = num / den + 1 := by
  unfold nearest
  dsimp only
  split_ifs <;> simp

/-! ## The grid -/

/-- Whether a decimal is inside, as the grid asks it. -/
theorem reads_iff (a : Binary64) (step : Int) (c : Nat) :
    insideInterval a.m a.q (scale 2 (scale 10 c 1 (-step)).1 (scale 10 c 1 (-step)).2 (2 - a.q)).1
        (scale 2 (scale 10 c 1 (-step)).1 (scale 10 c 1 (-step)).2 (2 - a.q)).2 = true ↔
      Inside a.m a.q (c * 10 ^ (-step) * 2 ^ (2 - a.q)) := by
  obtain ⟨tenPos, ten⟩ := scale_spec 10 (by decide) c 1 (-step) Nat.one_pos
  obtain ⟨twoPos, two⟩ := scale_spec 2 (by decide) (scale 10 c 1 (-step)).1
    (scale 10 c 1 (-step)).2 (2 - a.q) tenPos
  rw [insideInterval_iff twoPos, two, ten, Nat.cast_one, div_one, Nat.cast_ofNat, Nat.cast_ofNat]

/-- The number on the grid of `n`-digit decimals, as a fraction. -/
def gridPoint (a : Binary64) (step : Int) : Nat × Nat :=
  scale 10 (scale 2 a.m 1 a.q).1 (scale 2 a.m 1 a.q).2 step

theorem gridPoint_spec (a : Binary64) (step : Int) : 0 < (gridPoint a step).2 ∧
    ((gridPoint a step).1 / (gridPoint a step).2 : ℚ) = a.m * 2 ^ a.q * 10 ^ step := by
  obtain ⟨twoPos, two⟩ := scale_spec 2 (by decide) a.m 1 a.q Nat.one_pos
  obtain ⟨tenPos, ten⟩ := scale_spec 10 (by decide) (scale 2 a.m 1 a.q).1
    (scale 2 a.m 1 a.q).2 step twoPos
  refine ⟨tenPos, ?_⟩
  unfold gridPoint
  rw [ten, two, Nat.cast_one, div_one, Nat.cast_ofNat, Nat.cast_ofNat]

theorem gridNeighbour?_eq (a : Binary64) (e : Int) (n : Nat) :
    gridNeighbour? a e n =
      let (num, den) := gridPoint a (n - 1 - e)
      let reads (c : Nat) : Bool :=
        let (cn, cd) := scale 10 c 1 (-((n : Int) - 1 - e))
        let (cn, cd) := scale 2 cn cd (2 - a.q)
        insideInterval a.m a.q cn cd
      if reads (num / den) && reads (num / den + 1) then some (nearest num den)
      else if reads (num / den) then some (num / den)
      else if reads (num / den + 1) then some (num / den + 1)
      else none := by
  rfl

/-- What is found on the grid is inside the interval, and is next to the number. -/
theorem gridNeighbour?_inside {a : Binary64} {e : Int} {n c : Nat}
    (h : gridNeighbour? a e n = some c) :
    Inside a.m a.q (c * 10 ^ (-((n : Int) - 1 - e)) * 2 ^ (2 - a.q)) ∧
      (c = (gridPoint a (n - 1 - e)).1 / (gridPoint a (n - 1 - e)).2 ∨
        c = (gridPoint a (n - 1 - e)).1 / (gridPoint a (n - 1 - e)).2 + 1) := by
  rw [gridNeighbour?_eq] at h
  dsimp only at h
  rw [← reads_iff]
  split_ifs at h with both below above
  · rw [Bool.and_eq_true] at both
    cases h
    rcases nearest_cases (gridPoint a (n - 1 - e)).1 (gridPoint a (n - 1 - e)).2 with near | near
    · rw [near]
      exact ⟨both.1, .inl rfl⟩
    · rw [near]
      exact ⟨both.2, .inr rfl⟩
  · cases h
    exact ⟨below, .inl rfl⟩
  · cases h
    exact ⟨above, .inr rfl⟩

/-- Neighbours on the grid of 17 digits lie closer together than the ends of the interval. -/
theorem seventeen_digits {a : Binary64} {e : Int} (nonzero : a.m ≠ 0)
    (power : (10 : ℚ) ^ e ≤ a.m * 2 ^ a.q) : gridNeighbour? a e 17 ≠ none := by
  rw [gridNeighbour?_eq]
  dsimp only
  split_ifs with both below above
  · simp
  · simp
  · simp
  rw [reads_iff] at below above
  obtain ⟨positive, point⟩ := gridPoint_spec a ((17 : Nat) - 1 - e)
  obtain ⟨low, high⟩ := whole_bounds (gridPoint a ((17 : Nat) - 1 - e)).1 positive.ne'
  rw [point] at low high
  generalize (gridPoint a ((17 : Nat) - 1 - e)).1 / (gridPoint a ((17 : Nat) - 1 - e)).2 = c at *
  obtain ⟨neg, m, q, bits, _⟩ := a
  dsimp only at *
  have ten : (10 : ℚ) ≠ 0 := by norm_num
  have mPos : 0 < m := Nat.pos_of_ne_zero nonzero
  have mPos' : (0 : ℚ) < m := by exact_mod_cast mPos
  have bits' : (m : ℚ) < 0x20000000000000 := by exact_mod_cast bits
  -- one step of the grid in quarters of a step of the float
  have unit (b : ℚ) : b * 10 ^ (-(((17 : Nat) : Int) - 1 - e)) * 2 ^ (2 - q)
      = b * (10 ^ (-(((17 : Nat) : Int) - 1 - e)) * 2 ^ (2 - q)) := by ring
  have whole : (m * 2 ^ q * 10 ^ (((17 : Nat) : Int) - 1 - e) : ℚ)
      * (10 ^ (-(((17 : Nat) : Int) - 1 - e)) * 2 ^ (2 - q)) = 4 * m := by
    have tens := mul_inv_cancel₀ (zpow_ne_zero (((17 : Nat) : Int) - 1 - e) ten)
    have twos : (2 : ℚ) ^ q * 2 ^ (2 - q) = 4 := by
      rw [← zpow_add₀ two_ne_zero, add_sub_cancel]
      norm_num
    rw [zpow_neg]
    linear_combination (m * 2 ^ q * 2 ^ (2 - q) : ℚ) * tens + m * twos
  have stepPos : (0 : ℚ) < 10 ^ (-(((17 : Nat) : Int) - 1 - e)) * 2 ^ (2 - q) := by positivity
  have large : (10 : ℚ) ^ 16 ≤ m * 2 ^ q * 10 ^ (((17 : Nat) : Int) - 1 - e) := by
    calc (10 : ℚ) ^ 16 = 10 ^ e * 10 ^ (((17 : Nat) : Int) - 1 - e) := by
          rw [← zpow_add₀ ten, add_sub_cancel]
          norm_num
      _ ≤ m * 2 ^ q * 10 ^ (((17 : Nat) : Int) - 1 - e) := by gcongr
  rw [unit] at below above
  generalize (10 ^ (-(((17 : Nat) : Int) - 1 - e)) * 2 ^ (2 - q) : ℚ) = u at *
  generalize (m * 2 ^ q * 10 ^ (((17 : Nat) : Int) - 1 - e) : ℚ) = y at *
  have tooLow : c * u ≤ 4 * m - reach m q := by
    refine not_lt.1 fun h => below (inside_of_lt mPos h ?_)
    nlinarith
  have tooHigh : 4 * m + 2 ≤ ((c + 1 : Nat) : ℚ) * u := by
    refine not_lt.1 fun h => above (inside_of_lt mPos ?_ h)
    obtain ⟨atLeast, _⟩ := reach_bounds m q
    push_cast
    nlinarith
  push_cast at tooHigh
  have wide : reach m q + 2 ≤ u := by linarith
  have narrow : 10 ^ 16 * u ≤ 4 * m := by
    rw [← whole]
    gcongr
  unfold reach at wide
  split at wide
  · next power =>
    rw [power.1] at narrow
    norm_num at narrow wide
    linarith
  · linarith

/-! ## The digits -/

theorem dropZeros_eq (fuel n : Nat) : ∃ zeros, n = dropZeros fuel n * 10 ^ zeros := by
  induction fuel generalizing n with
  | zero => exact ⟨0, by simp [dropZeros]⟩
  | succ fuel ih =>
    rw [dropZeros]
    split
    · next zero =>
      obtain ⟨zeros, h⟩ := ih (n / 10)
      refine ⟨zeros + 1, ?_⟩
      rw [Nat.pow_succ, ← Nat.mul_assoc, ← h]
      omega
    · exact ⟨0, by simp⟩

theorem digitCount_mul_pow {n : Nat} (h : n ≠ 0) (zeros : Nat) :
    digitCount (n * 10 ^ zeros) = digitCount n + zeros := by
  obtain ⟨positive, low, high⟩ := digitCount_bounds h
  have count := digitCount_eq (n := n * 10 ^ zeros) (k := digitCount n - 1 + zeros)
    (by rw [Nat.pow_add]; exact Nat.mul_le_mul_right _ low) (by
      rw [show digitCount n - 1 + zeros + 1 = digitCount n + zeros by omega, Nat.pow_add]
      exact Nat.mul_lt_mul_of_pos_right high (Nat.pow_pos (by decide)))
  omega

/-- A neighbour of a number between two powers of ten has the digits of the number, or is the
upper power. -/
theorem digitCount_neighbour {n below c : Nat} (hn : n ≠ 0) (low : 10 ^ (n - 1) ≤ below)
    (high : below < 10 ^ n) (near : c = below ∨ c = below + 1) :
    c ≠ 0 ∧ (digitCount c = n ∨ digitCount c = n + 1) := by
  have positive := Nat.pow_pos (n := n - 1) (show 0 < 10 by decide)
  refine ⟨by omega, ?_⟩
  by_cases upper : c = 10 ^ n
  · right
    have power := digitCount_eq (n := 10 ^ n) (k := n) (Nat.le_refl _)
      (Nat.pow_lt_pow_right (by decide) (Nat.lt_succ_self n))
    rw [upper, power]
  · left
    have count := digitCount_eq (n := c) (k := n - 1) (by omega)
      (by rw [Nat.sub_add_cancel (Nat.one_le_iff_ne_zero.2 hn)]; omega)
    omega

/-- The point of an `n`-digit grid has `n` digits before the point. -/
theorem neighbour_bounds {a : Binary64} {e : Int} {n : Nat}
    (low : (10 : ℚ) ^ e ≤ a.m * 2 ^ a.q) (high : (a.m * 2 ^ a.q : ℚ) < 10 ^ (e + 1)) (hn : n ≠ 0) :
    10 ^ (n - 1) ≤ (gridPoint a (n - 1 - e)).1 / (gridPoint a (n - 1 - e)).2 ∧
      (gridPoint a (n - 1 - e)).1 / (gridPoint a (n - 1 - e)).2 < 10 ^ n := by
  have ten : (10 : ℚ) ≠ 0 := by norm_num
  have unit : (0 : ℚ) < 10 ^ ((n : Int) - 1 - e) := by positivity
  obtain ⟨positive, point⟩ := gridPoint_spec a (n - 1 - e)
  obtain ⟨below, above⟩ := whole_bounds (gridPoint a (n - 1 - e)).1 positive.ne'
  rw [point] at below above
  have first : (10 : ℚ) ^ (n - 1) ≤ a.m * 2 ^ a.q * 10 ^ ((n : Int) - 1 - e) := by
    calc (10 : ℚ) ^ (n - 1) = 10 ^ e * 10 ^ ((n : Int) - 1 - e) := by
          rw [← zpow_add₀ ten, add_sub_cancel, ← zpow_natCast]
          congr 1
          omega
      _ ≤ a.m * 2 ^ a.q * 10 ^ ((n : Int) - 1 - e) := by gcongr
  have last : (a.m * 2 ^ a.q * 10 ^ ((n : Int) - 1 - e) : ℚ) < 10 ^ n := by
    calc (a.m * 2 ^ a.q * 10 ^ ((n : Int) - 1 - e) : ℚ)
        < 10 ^ (e + 1) * 10 ^ ((n : Int) - 1 - e) := by gcongr
      _ = 10 ^ n := by
          rw [← zpow_add₀ ten, ← zpow_natCast]
          congr 1
          ring
  generalize (gridPoint a (n - 1 - e)).1 / (gridPoint a (n - 1 - e)).2 = c at *
  constructor
  · have := first.trans_lt above
    exact Nat.lt_succ_iff.1 (by exact_mod_cast this)
  · exact_mod_cast below.trans_lt last

/-- The shortest decimal of a float other than zero is inside the interval that rounds to it. -/
theorem shortest_inside (a : Binary64) (nonzero : a.m ≠ 0) : a.shortest.digits ≠ 0 ∧
    Inside a.m a.q (a.shortest.digits
      * 10 ^ (a.shortest.exponent + 1 - digitCount a.shortest.digits) * 2 ^ (2 - a.q)) := by
  obtain ⟨denPos, value⟩ := scale_spec 2 (by decide) a.m 1 a.q Nat.one_pos
  rw [Nat.cast_one, div_one] at value
  have valuePos : (0 : ℚ) < a.m * 2 ^ a.q := by
    have : (0 : ℚ) < a.m := by exact_mod_cast Nat.pos_of_ne_zero nonzero
    positivity
  have hnum : (scale 2 a.m 1 a.q).1 ≠ 0 := by
    intro zero
    rw [zero, Nat.cast_zero, zero_div] at value
    exact valuePos.ne value
  obtain ⟨low, high⟩ := decimalExponent_bounds hnum denPos.ne'
  rw [value] at low high
  unfold shortest
  rw [if_neg nonzero]
  dsimp only
  generalize decimalExponent (scale 2 a.m 1 a.q).1 (scale 2 a.m 1 a.q).2 = e at *
  split
  · next n c found =>
    obtain ⟨i, _, here⟩ := List.exists_of_findSome?_eq_some found
    obtain ⟨c', isNeighbour, same⟩ := Option.map_eq_some_iff.1 here
    cases same
    obtain ⟨inside, near⟩ := gridNeighbour?_inside isNeighbour
    obtain ⟨below, above⟩ := neighbour_bounds low high (Nat.succ_ne_zero i)
    obtain ⟨cNonzero, count⟩ := digitCount_neighbour (Nat.succ_ne_zero i) below above near
    obtain ⟨zeros, split⟩ := dropZeros_eq (i + 1) c
    have digitsNonzero : dropZeros (i + 1) c ≠ 0 := by
      intro zero
      rw [zero, Nat.zero_mul] at split
      exact cNonzero split
    have digits := digitCount_mul_pow digitsNonzero zeros
    rw [← split] at digits
    refine ⟨digitsNonzero, ?_⟩
    have same : (c : ℚ) * 10 ^ (-(((i + 1 : Nat) : Int) - 1 - e))
        = dropZeros (i + 1) c * 10 ^ ((if digitCount c = i + 1 then e else e + 1) + 1
          - (digitCount (dropZeros (i + 1) c) : Int)) := by
      have power : ((if digitCount c = i + 1 then e else e + 1) + 1
          - (digitCount (dropZeros (i + 1) c) : Int))
          = zeros + -(((i + 1 : Nat) : Int) - 1 - e) := by
        split_ifs <;> omega
      rw [power, zpow_add₀ (by norm_num), zpow_natCast, ← mul_assoc]
      congr 1
      exact_mod_cast split
    rwa [same] at inside
  · next none =>
    have last := List.findSome?_eq_none_iff.1 none 16 (by decide)
    exact absurd (Option.map_eq_none_iff.1 last) (seventeen_digits nonzero low)

end Permit.Binary64
