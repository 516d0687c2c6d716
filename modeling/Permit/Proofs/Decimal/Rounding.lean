-- Rounding: each number of the interval around a float is rounded to that float, whether it
-- is given as a quotient or as a decimal.
import Mathlib.Algebra.Order.Field.Rat
import Mathlib.Algebra.Order.Field.Power
import Mathlib.Tactic.FieldSimp
import Mathlib.Tactic.Linarith
import Mathlib.Tactic.NormNum
import Mathlib.Tactic.Positivity
import Mathlib.Tactic.Ring
import Permit.Decimal.Shortest

namespace Permit.Binary64

/-! ## Fractions -/

/-- A fraction times a power of the base is a fraction again. -/
theorem scale_spec (base : Nat) (basePos : 0 < base) (num den : Nat) (shift : Int)
    (positive : 0 < den) :
    0 < (scale base num den shift).2 ∧
      ((scale base num den shift).1 : ℚ) / (scale base num den shift).2
        = num / den * (base : ℚ) ^ shift := by
  unfold scale
  split
  · next up =>
    refine ⟨positive, ?_⟩
    obtain ⟨k, rfl⟩ := Int.eq_ofNat_of_zero_le up
    simp only [Int.toNat_natCast, Nat.pow_eq]
    push_cast
    rw [zpow_natCast]
    ring
  · next down =>
    obtain ⟨k, hk⟩ := Int.eq_ofNat_of_zero_le (show 0 ≤ -shift by omega)
    rw [hk]
    obtain rfl : shift = -(k : Int) := by omega
    simp only [Int.toNat_natCast, Nat.pow_eq]
    refine ⟨Nat.mul_pos positive (Nat.pow_pos basePos), ?_⟩
    push_cast
    rw [zpow_neg, zpow_natCast]
    field_simp

/-- The whole number nearest to a fraction: less than a half away, or a half and even. -/
theorem nearest_eq {num den m : Nat} (positive : 0 < den)
    (below : (2 * m - 1 : ℚ) ≤ 2 * (num / den)) (above : 2 * (num / den : ℚ) ≤ 2 * m + 1)
    (tie : 2 * (num / den : ℚ) = 2 * m - 1 ∨ 2 * (num / den : ℚ) = 2 * m + 1 → m % 2 = 0) :
    nearest num den = m := by
  have hden : (0 : ℚ) < den := by exact_mod_cast positive
  have hrest : ((num % den : Nat) : ℚ) < den := by exact_mod_cast Nat.mod_lt num positive
  have split : (num / den : ℚ) = (num / den : Nat) + (num % den : Nat) / den := by
    have whole : (num : ℚ) = den * (num / den : Nat) + (num % den : Nat) := by
      exact_mod_cast (Nat.div_add_mod num den).symm
    rw [whole, add_div, mul_div_cancel_left₀ _ hden.ne']
  have half (a : ℚ) : 2 * (a / den) < 1 ↔ 2 * a < den := by
    rw [← mul_div_assoc, div_lt_one hden]
  have half' (a : ℚ) : 1 < 2 * (a / den) ↔ den < 2 * a := by
    rw [← mul_div_assoc, one_lt_div hden]
  have less := (div_lt_one hden).2 hrest
  have more : (0 : ℚ) ≤ (num % den : Nat) / den := by positivity
  rw [split] at below above tie
  unfold nearest
  dsimp only
  split_ifs with low high even
  · have := (half (num % den : Nat)).2 (by exact_mod_cast low)
    have upper : (m : ℚ) < (num / den : Nat) + 1 := by linarith
    have lower : ((num / den : Nat) : ℚ) < m + 1 := by linarith
    norm_cast at upper lower
    omega
  · have := (half' (num % den : Nat)).2 (by exact_mod_cast high)
    have upper : (m : ℚ) < (num / den : Nat) + 2 := by linarith
    have lower : ((num / den : Nat) : ℚ) < m := by linarith
    norm_cast at upper lower
    omega
  all_goals
    have exact : 2 * (((num % den : Nat) : ℚ) / den) = 1 := by
      apply le_antisymm
      · exact not_lt.1 fun h => high (by exact_mod_cast (half' _).1 h)
      · exact not_lt.1 fun h => low (by exact_mod_cast (half _).1 h)
    have upper : (m : ℚ) ≤ (num / den : Nat) + 1 := by linarith
    have lower : ((num / den : Nat) : ℚ) ≤ m := by linarith
    norm_cast at upper lower
    have isEven : m % 2 = 0 := by
      apply tie
      rcases Nat.eq_or_lt_of_le lower with same | other
      · right
        rw [← same]
        linarith
      · left
        have next : m = num / den + 1 := by omega
        rw [next]
        push_cast
        linarith
    omega

/-! ## The interval -/

/-- Whether a number, in quarters of `2 ^ q`, is rounded to `m · 2 ^ q`. -/
def Inside (m : Nat) (q : Int) (y : ℚ) : Prop :=
  let (low, high) := interval m q
  if m % 2 = 0 then low ≤ y ∧ y ≤ high else low < y ∧ y < high

theorem insideInterval_iff {m : Nat} {q : Int} {n d : Nat} (positive : 0 < d) :
    insideInterval m q n d = true ↔ Inside m q (n / d) := by
  have hd : (0 : ℚ) < d := by exact_mod_cast positive
  unfold insideInterval Inside
  dsimp only
  split
  · rw [Bool.and_eq_true, decide_eq_true_eq, decide_eq_true_eq, le_div_iff₀ hd, div_le_iff₀ hd]
    norm_cast
  · rw [Bool.and_eq_true, decide_eq_true_eq, decide_eq_true_eq, lt_div_iff₀ hd, div_lt_iff₀ hd]
    norm_cast

/-- How far the interval goes down, in quarters of a step: half a step, but below the least
significand of an exponent a quarter. -/
def reach (m : Nat) (q : Int) : ℚ := if m = 0x10000000000000 ∧ -1074 < q then 1 else 2

theorem reach_bounds (m : Nat) (q : Int) : 1 ≤ reach m q ∧ reach m q ≤ 2 := by
  unfold reach
  split <;> norm_num

/-- The interval reaches half a step up; an end belongs to it when the significand is even. -/
theorem inside_iff {m : Nat} {q : Int} {y : ℚ} (positive : 0 < m) :
    Inside m q y ↔ if m % 2 = 0 then 4 * m - reach m q ≤ y ∧ y ≤ 4 * m + 2
      else 4 * m - reach m q < y ∧ y < 4 * m + 2 := by
  have low : ((interval m q).1 : ℚ) = 4 * m - reach m q := by
    unfold interval reach
    dsimp only
    split <;> rw [Nat.cast_sub (by omega)] <;> push_cast <;> ring
  have high : ((interval m q).2 : ℚ) = 4 * m + 2 := by
    unfold interval
    push_cast
    ring
  rw [← low, ← high]
  rfl

theorem Inside.bounds {m : Nat} {q : Int} {y : ℚ} (h : Inside m q y) (positive : 0 < m) :
    4 * m - reach m q ≤ y ∧ y ≤ 4 * m + 2 ∧
      (y = 4 * m - reach m q ∨ y = 4 * m + 2 → m % 2 = 0) := by
  rw [inside_iff positive] at h
  split at h
  · next even => exact ⟨h.1, h.2, fun _ => even⟩
  · refine ⟨h.1.le, h.2.le, ?_⟩
    rintro (low | high)
    · exact absurd low h.1.ne'
    · exact absurd high h.2.ne

/-- What is nearer than the ends is inside. -/
theorem inside_of_lt {m : Nat} {q : Int} {y : ℚ} (positive : 0 < m)
    (low : 4 * m - reach m q < y) (high : y < 4 * m + 2) : Inside m q y := by
  rw [inside_iff positive]
  split
  · exact ⟨low.le, high.le⟩
  · exact ⟨low, high⟩

/-! ## Exponents -/

/-- A quotient lies between the powers of two that its parts give. -/
theorem quotient_bounds {num den : Nat} (hnum : num ≠ 0) (hden : den ≠ 0) :
    (2 : ℚ) ^ ((num.log2 : Int) - den.log2 - 1) < num / den ∧
      (num / den : ℚ) < 2 ^ ((num.log2 : Int) - den.log2 + 1) := by
  have numLow : (2 : ℚ) ^ num.log2 ≤ num := by exact_mod_cast Nat.log2_self_le hnum
  have numHigh : (num : ℚ) < 2 ^ (num.log2 + 1) := by exact_mod_cast Nat.lt_log2_self
  have denLow : (2 : ℚ) ^ den.log2 ≤ den := by exact_mod_cast Nat.log2_self_le hden
  have denHigh : (den : ℚ) < 2 ^ (den.log2 + 1) := by exact_mod_cast Nat.lt_log2_self
  have numPos : (0 : ℚ) < num := by exact_mod_cast Nat.pos_of_ne_zero hnum
  have denPos : (0 : ℚ) < den := by exact_mod_cast Nat.pos_of_ne_zero hden
  have low : (2 : ℚ) ^ ((num.log2 : Int) - den.log2 - 1) = 2 ^ num.log2 / 2 ^ (den.log2 + 1) := by
    rw [sub_sub, zpow_sub₀ two_ne_zero, zpow_natCast]
    norm_cast
  have high : (2 : ℚ) ^ ((num.log2 : Int) - den.log2 + 1) = 2 ^ (num.log2 + 1) / 2 ^ den.log2 := by
    rw [sub_add_eq_add_sub, zpow_sub₀ two_ne_zero, zpow_natCast]
    norm_cast
  rw [low, high]
  constructor
  · exact div_lt_div₀' numLow denHigh numPos (by positivity)
  · exact div_lt_div₀ numHigh denLow (by positivity) (by positivity)

theorem scale_div_lt {num den : Nat} (hden : den ≠ 0) (q : Int) :
    (scale 2 num den (-q)).1 / (scale 2 num den (-q)).2 < 0x20000000000000 ↔
      (num / den : ℚ) < 2 ^ (q + 53) := by
  obtain ⟨positive, value⟩ := scale_spec 2 (by decide) num den (-q) (Nat.pos_of_ne_zero hden)
  have hpos : (0 : ℚ) < (scale 2 num den (-q)).2 := by exact_mod_cast positive
  have hq : (0 : ℚ) < 2 ^ q := by positivity
  rw [Nat.div_lt_iff_lt_mul positive]
  have cross : (scale 2 num den (-q)).1 < 0x20000000000000 * (scale 2 num den (-q)).2 ↔
      ((scale 2 num den (-q)).1 : ℚ) / (scale 2 num den (-q)).2 < 0x20000000000000 := by
    rw [div_lt_iff₀ hpos]
    norm_cast
  rw [cross, value, Nat.cast_ofNat, zpow_neg, ← div_eq_mul_inv, div_lt_iff₀ hq,
    zpow_add₀ two_ne_zero, mul_comm]
  norm_num

/-- The exponent of a quotient is the one where 53 bits stand before the point, or the
least. -/
theorem exponentFor_eq {num den : Nat} (hnum : num ≠ 0) (hden : den ≠ 0) {q : Int}
    (least : -1074 ≤ q) (below : (num / den : ℚ) < 2 ^ (q + 53))
    (above : q = -1074 ∨ 2 ^ (q + 52) ≤ (num / den : ℚ)) : exponentFor num den = q := by
  obtain ⟨low, high⟩ := quotient_bounds hnum hden
  have two : (1 : ℚ) < 2 := by norm_num
  have first := (zpow_lt_zpow_iff_right₀ two).1 (low.trans below)
  have second : q = -1074 ∨ q + 52 < (num.log2 : Int) - den.log2 + 1 :=
    above.imp_right fun h => (zpow_lt_zpow_iff_right₀ two).1 (h.trans_lt high)
  unfold exponentFor
  dsimp only
  split
  · next fits =>
    rw [scale_div_lt hden] at fits
    have third : q = -1074 ∨ q < max (-1074) ((num.log2 : Int) - den.log2 - 53) + 1 :=
      above.imp_right fun h => by
        have := (zpow_lt_zpow_iff_right₀ two).1 (h.trans_lt fits)
        omega
    omega
  · next large =>
    rw [scale_div_lt hden, not_lt] at large
    have third := (zpow_lt_zpow_iff_right₀ two).1 (large.trans_lt below)
    omega

/-! ## Rounding to a number -/

/-- Powers of two in units of a quarter step. -/
theorem two_zpow_add (q k : Int) : (2 : ℚ) ^ (q + k) = 2 ^ (k + 2) * 2 ^ (q - 2) := by
  rw [← zpow_add₀ two_ne_zero]
  congr 1
  ring

/-- What `ofQuotient` gives once the exponent and the significand are known. -/
theorem ofQuotient_of_nearest {neg : Bool} {num den m : Nat} {q : Int} (hnum : num ≠ 0)
    (exponent : exponentFor num den = q)
    (significand : nearest (scale 2 num den (-q)).1 (scale 2 num den (-q)).2 = m) :
    ofQuotient neg num den =
      if h : Canonical (if m = 0x20000000000000 then 0x10000000000000 else m)
          (if m = 0x20000000000000 then q + 1 else q)
      then some ⟨neg, _, _, h⟩ else none := by
  unfold ofQuotient
  rw [if_neg hnum, exponent]
  dsimp only
  rw [significand]
  split <;> rfl

/-- A quotient inside the interval of a float is rounded to it. -/
theorem ofQuotient_eq {neg : Bool} {num den : Nat} (a : Binary64) (hden : den ≠ 0)
    (nonzero : a.m ≠ 0) (inside : Inside a.m a.q (num / den * 2 ^ (2 - a.q))) :
    ofQuotient neg num den = some (a.withSign neg) := by
  obtain ⟨sign, m, q, canonical⟩ := a
  obtain ⟨bits, least, _, normal⟩ := id canonical
  have positive : 0 < m := Nat.pos_of_ne_zero nonzero
  obtain ⟨low, high, even⟩ := inside.bounds positive
  obtain ⟨_, width⟩ := reach_bounds m q
  have unit : (0 : ℚ) < 2 ^ (q - 2) := by positivity
  have scaled : (num / den : ℚ) = num / den * 2 ^ (2 - q) * 2 ^ (q - 2) := by
    rw [mul_assoc, ← zpow_add₀ two_ne_zero]
    norm_num
  dsimp only at *
  generalize (num / den * 2 ^ (2 - q) : ℚ) = y at *
  have bits' : (m : ℚ) + 1 ≤ 0x20000000000000 := by exact_mod_cast bits
  have atLeast : (1 : ℚ) ≤ m := by exact_mod_cast positive
  have hnum : num ≠ 0 := by
    rintro rfl
    rw [Nat.cast_zero, zero_div] at scaled
    have := mul_pos (show 0 < y by linarith) unit
    linarith
  by_cases usual : q = -1074 ∨ 0x40000000000000 ≤ y
  · have exponent : exponentFor num den = q := by
      apply exponentFor_eq hnum hden least
      · rw [scaled, two_zpow_add, mul_lt_mul_iff_of_pos_right unit]
        norm_num
        linarith
      · refine usual.imp_right fun h => ?_
        rw [scaled, two_zpow_add, mul_le_mul_iff_of_pos_right unit]
        norm_num
        linarith
    have significand : nearest (scale 2 num den (-q)).1 (scale 2 num den (-q)).2 = m := by
      obtain ⟨hpos, value⟩ := scale_spec 2 (by decide) num den (-q) (Nat.pos_of_ne_zero hden)
      have quarter : (y * 2 ^ (q - 2) * 2 ^ (-q) : ℚ) = y / 4 := by
        rw [mul_assoc, ← zpow_add₀ two_ne_zero, show q - 2 + -q = -2 by ring]
        norm_num
        ring
      rw [scaled, Nat.cast_ofNat, quarter] at value
      refine nearest_eq hpos ?_ ?_ fun tie => even ?_
      · rw [value]
        linarith
      · rw [value]
        linarith
      · rw [value] at tie
        rcases tie with tie | tie
        · left
          linarith
        · right
          linarith
    have inRange : m ≠ 0x20000000000000 := bits.ne
    rw [ofQuotient_of_nearest hnum exponent significand, dif_pos (by simpa [inRange])]
    simp [withSign, inRange]
  · -- just below the least significand, one exponent lower, the rounding carries
    rw [not_or, not_le] at usual
    obtain ⟨notLeast, small⟩ := usual
    have isNormal : (0x10000000000000 : ℚ) ≤ m := by
      exact_mod_cast normal.resolve_right notLeast
    have hm : m = 0x10000000000000 := by
      have : (m : ℚ) < 0x10000000000000 + 1 := by linarith
      norm_cast at this isNormal
      omega
    have hreach : reach m q = 1 := if_pos ⟨hm, lt_of_le_of_ne least (Ne.symm notLeast)⟩
    rw [hreach, hm] at low
    norm_num at low
    have exponent : exponentFor num den = q - 1 := by
      apply exponentFor_eq hnum hden (by omega)
      · rw [scaled, sub_add_eq_add_sub, add_sub_assoc, two_zpow_add,
          mul_lt_mul_iff_of_pos_right unit]
        norm_num
        linarith
      · right
        rw [scaled, sub_add_eq_add_sub, add_sub_assoc, two_zpow_add,
          mul_le_mul_iff_of_pos_right unit]
        norm_num
        linarith
    have significand : nearest (scale 2 num den (-(q - 1))).1 (scale 2 num den (-(q - 1))).2
        = 0x20000000000000 := by
      obtain ⟨hpos, value⟩ :=
        scale_spec 2 (by decide) num den (-(q - 1)) (Nat.pos_of_ne_zero hden)
      have half : (y * 2 ^ (q - 2) * 2 ^ (-(q - 1)) : ℚ) = y / 2 := by
        rw [mul_assoc, ← zpow_add₀ two_ne_zero, show q - 2 + -(q - 1) = -1 by ring]
        norm_num
        ring
      rw [scaled, Nat.cast_ofNat, half] at value
      refine nearest_eq hpos ?_ ?_ fun _ => by norm_num
      · rw [value]
        norm_num
        linarith
      · rw [value]
        norm_num
        linarith
    subst hm
    rw [ofQuotient_of_nearest hnum exponent significand, dif_pos (by simpa)]
    simp [withSign]

/-! ## Decimals -/

/-- A number has as many digits as powers of ten are at or below it. -/
theorem digitCount_bounds {n : Nat} (h : n ≠ 0) :
    0 < digitCount n ∧ 10 ^ (digitCount n - 1) ≤ n ∧ n < 10 ^ digitCount n := by
  unfold digitCount
  rw [if_neg h]
  have positive : 0 < (Nat.toDigits 10 n).length := Nat.length_toDigits_pos
  refine ⟨positive, ?_, (Nat.length_toDigits_le_iff (by decide) positive).1 (Nat.le_refl _)⟩
  by_cases one : (Nat.toDigits 10 n).length - 1 = 0
  · rw [one]
    omega
  · rw [← Nat.not_lt, ← Nat.length_toDigits_le_iff (by decide) (Nat.pos_of_ne_zero one)]
    omega

theorem decimal_bounds {digits : Nat} (h : digits ≠ 0) (exponent : Int) :
    (10 : ℚ) ^ (exponent + digitCount digits - 1) ≤ digits * 10 ^ exponent ∧
      (digits * 10 ^ exponent : ℚ) < 10 ^ (exponent + digitCount digits) := by
  obtain ⟨positive, low, high⟩ := digitCount_bounds h
  have ten : (10 : ℚ) ≠ 0 := by norm_num
  have unit : (0 : ℚ) < 10 ^ exponent := by positivity
  have low' : (10 : ℚ) ^ (digitCount digits - 1) ≤ digits := by exact_mod_cast low
  have high' : (digits : ℚ) < 10 ^ digitCount digits := by exact_mod_cast high
  constructor
  · rw [add_sub_assoc, zpow_add₀ ten, mul_comm, ← Nat.cast_one, ← Nat.cast_sub positive,
      zpow_natCast]
    exact mul_le_mul_of_nonneg_right low' unit.le
  · rw [zpow_add₀ ten, mul_comm, zpow_natCast]
    exact mul_lt_mul_of_pos_left high' unit

theorem two_pow_lt : 2 ^ 1075 < 10 ^ 400 := by decide +kernel

theorem two_pow_le : 2 ^ 1024 ≤ 10 ^ 311 := by decide +kernel

/-- No decimal inside an interval is out of the range where it is looked at closely. -/
theorem magnitude_bounds {digits : Nat} {exponent : Int} (a : Binary64)
    (nonzero : a.m ≠ 0) (inside : Inside a.m a.q (digits * 10 ^ exponent * 2 ^ (2 - a.q))) :
    digits ≠ 0 ∧ -400 ≤ exponent + digitCount digits ∧
      exponent + digitCount digits ≤ 311 := by
  obtain ⟨sign, m, q, bits, least, most, _⟩ := a
  dsimp only at *
  have positive : 0 < m := Nat.pos_of_ne_zero nonzero
  obtain ⟨low, high, _⟩ := inside.bounds positive
  obtain ⟨_, width⟩ := reach_bounds m q
  have bits' : (m : ℚ) + 1 ≤ 0x20000000000000 := by exact_mod_cast bits
  have atLeast : (1 : ℚ) ≤ m := by exact_mod_cast positive
  have unit : (0 : ℚ) < 2 ^ (q - 2) := by positivity
  have scaled : (digits * 10 ^ exponent : ℚ)
      = digits * 10 ^ exponent * 2 ^ (2 - q) * 2 ^ (q - 2) := by
    rw [mul_assoc, ← zpow_add₀ two_ne_zero]
    norm_num
  have ten : (1 : ℚ) ≤ 10 := by norm_num
  have above : (2 : ℚ) ^ (-1075 : Int) ≤ digits * 10 ^ exponent := by
    calc (2 : ℚ) ^ (-1075 : Int) = 2 * 2 ^ (-1074 - 2 : Int) := by
          rw [← zpow_one_add₀ two_ne_zero]
          norm_num
      _ ≤ 2 * 2 ^ (q - 2) := by
          gcongr
      _ ≤ digits * 10 ^ exponent := by
          rw [scaled]
          gcongr
          linarith
  have below : (digits * 10 ^ exponent : ℚ) < 2 ^ (1024 : Int) := by
    calc (digits * 10 ^ exponent : ℚ) < 2 ^ (55 : Int) * 2 ^ (q - 2) := by
          rw [scaled]
          gcongr
          norm_num
          linarith
      _ ≤ 2 ^ (55 : Int) * 2 ^ (971 - 2 : Int) := by
          gcongr
      _ = 2 ^ (1024 : Int) := by
          rw [← zpow_add₀ two_ne_zero]
          norm_num
  have hdigits : digits ≠ 0 := by
    rintro rfl
    have : (0 : ℚ) < 2 ^ (-1075 : Int) := by positivity
    rw [Nat.cast_zero, zero_mul] at above
    linarith
  obtain ⟨decLow, decHigh⟩ := decimal_bounds hdigits exponent
  have tiny : (10 : ℚ) ^ (-400 : Int) ≤ 2 ^ (-1075 : Int) := by
    rw [zpow_neg, zpow_neg]
    apply inv_anti₀ (by positivity)
    exact_mod_cast two_pow_lt.le
  have huge : (2 : ℚ) ^ (1024 : Int) ≤ 10 ^ (311 : Int) := by exact_mod_cast two_pow_le
  refine ⟨hdigits, not_lt.1 fun h => ?_, not_lt.1 fun h => ?_⟩
  · have less := zpow_le_zpow_right₀ ten (show exponent + digitCount digits ≤ -400 by omega)
    exact absurd (decHigh.trans_le (less.trans tiny)) (not_lt.2 above)
  · have more := zpow_le_zpow_right₀ ten (show 311 ≤ exponent + digitCount digits - 1 by omega)
    exact absurd (below.trans_le (huge.trans more)) (not_lt.2 decLow)

/-- A decimal inside the interval of a float is rounded to it. -/
theorem ofDecimal_eq {neg : Bool} {digits : Nat} {exponent : Int} (a : Binary64)
    (nonzero : a.m ≠ 0) (inside : Inside a.m a.q (digits * 10 ^ exponent * 2 ^ (2 - a.q))) :
    ofDecimal neg digits exponent = some (a.withSign neg) := by
  obtain ⟨hdigits, small, large⟩ := magnitude_bounds a nonzero inside
  unfold ofDecimal
  dsimp only
  rw [if_neg (by omega), if_neg (by omega)]
  obtain ⟨positive, value⟩ := scale_spec 10 (by decide) digits 1 exponent Nat.one_pos
  apply ofQuotient_eq a positive.ne' nonzero
  rw [value]
  simpa using inside

end Permit.Binary64
