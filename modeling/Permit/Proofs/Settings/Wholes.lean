-- Whole numbers in decimal digits as settings. In quotes they are read as they are. In a variable a
-- number of 64 bits is exact, and any other is rounded to a float first: above those of 64 bits it
-- stays too large for a port, and below them it counts as zero.
import Permit.Proofs.Decimal.Wholes
import Permit.Proofs.Grammar.Floats
import Permit.Proofs.Variables

namespace Permit

open Expression.Grammar (Digits Sign digits_natDigits signed)
open Extended (wholeOfText? digitsValue)

/-! ## Whole numbers in digits -/

/-- A whole number in decimal digits, as many as there are, with a sign or without. -/
inductive SpellsWhole : List Char → Int → Prop
  | mk {sign ds neg} : Sign sign neg → Digits ds →
      SpellsWhole (sign ++ ds) (signed neg (Nat.ofDigitChars 10 ds 0))

/-- The digits in which a number is printed spell it. -/
theorem spellsWhole_intDigits (n : Int) : SpellsWhole (intDigits n) n := by
  have value : Nat.ofDigitChars 10 (natDigits n.natAbs) 0 = n.natAbs :=
    Nat.ofDigitChars_ten_toDigits
  unfold intDigits
  split
  · have spelled : SpellsWhole _ _ := .mk .minus (digits_natDigits n.natAbs)
    rw [value, signed, if_pos rfl, show -(n.natAbs : Int) = n by omega] at spelled
    exact spelled
  · have spelled : SpellsWhole _ _ := .mk .absent (digits_natDigits n.natAbs)
    rw [value, signed, if_neg (by decide), show (n.natAbs : Int) = n by omega] at spelled
    exact spelled

namespace SpellsWhole

variable {s : List Char} {n : Int}

theorem wholeOfText (h : SpellsWhole s n) : wholeOfText? s = some n := by
  cases h with
  | @mk sign ds neg signs digits =>
    have isWhole : ¬ (ds = [] ∨ (!ds.all Char.isDigit) = true) := by
      simpa [digits.1] using digits.2
    unfold wholeOfText?
    rw [sign_append signs digits]
    dsimp only
    rw [if_neg isWhole]
    rfl

/-- The characters are digits and signs. -/
theorem isUpper_of_mem (h : SpellsWhole s n) : ∀ c ∈ s, c.isUpper = false := by
  cases h with
  | @mk sign ds neg signs digits =>
    intro c hc
    rcases List.mem_append.1 hc with hc | hc
    · cases signs with
      | absent => cases hc
      | plus =>
        rw [List.mem_singleton.1 hc]
        rfl
      | minus =>
        rw [List.mem_singleton.1 hc]
        rfl
    · exact isUpper_of_isDigit (digits.2 c hc)

theorem toLower_eq {value : String} (h : SpellsWhole value.toList n) : value.toLower = value :=
  Text.toLower_of_forall h.isUpper_of_mem

/-- No word spells a whole number. -/
theorem ne_word {value : String} (h : SpellsWhole value.toList n) (words : List String)
    (letters : ∀ word ∈ words, wholeOfText? word.toList = none) :
    words.contains value.toLower = false := by
  rw [h.toLower_eq, ← Bool.not_eq_true, List.contains_iff_mem]
  intro mem
  have spelled := letters value mem
  rw [h.wholeOfText] at spelled
  cases spelled

theorem ne_flagWord {value : String} (h : SpellsWhole value.toList n) (b : Bool) :
    value.toLower ≠ flagWord b := by
  intro flag
  have spelled := wholeOfText?_flag flag
  rw [h.wholeOfText] at spelled
  cases spelled

/-- A number with a minus is not above zero, and one without is not below. -/
theorem sign_cases (h : SpellsWhole s n) :
    s.head? = some '-' ∧ n ≤ 0 ∨ s.head? ≠ some '-' ∧ 0 ≤ n := by
  cases h with
  | @mk sign ds neg signs digits =>
    cases signs with
    | absent =>
      obtain ⟨c, rest, rfl⟩ := List.exists_cons_of_ne_nil digits.1
      refine .inr ⟨?_, by simp [signed]⟩
      rintro ⟨⟩
      exact absurd (digits.2 _ List.mem_cons_self) (by decide)
    | plus => exact .inr ⟨by simp, by simp [signed]⟩
    | minus => exact .inl ⟨rfl, by simp [signed]⟩

/-- As a float a number other than zero is rounded to the nearest one. -/
theorem ofText (h : SpellsWhole s n) (nonzero : n ≠ 0) :
    Extended.ofText? s = some (Extended.ofDecimal (decide (n < 0)) n.natAbs 0) := by
  cases h with
  | @mk sign ds neg signs digits =>
    have plain : SpellsWhole (String.ofList ds).toList (signed false (digitsValue ds)) := by
      rw [String.toList_ofList]
      exact .mk .absent digits
    have noWord := plain.ne_word ["inf", "infinity", "nan"] (by decide)
    have whole : ds.takeWhile Char.isDigit = ds := by simpa using digits.2
    have rest : ds.dropWhile Char.isDigit = [] := by simpa using digits.2
    have read : Extended.ofText? (sign ++ ds) =
        some (Extended.ofDecimal neg (digitsValue ds) 0) := by
      simp only [List.contains_eq_mem, List.mem_cons, List.not_mem_nil, or_false,
        decide_eq_false_iff_not, not_or] at noWord
      unfold Extended.ofText?
      rw [sign_append signs digits]
      dsimp only
      rw [if_neg (by simp [noWord.1, noWord.2.1]), if_neg noWord.2.2, whole, rest]
      simp [digits.1, Extended.exponentOfText?]
    rw [read]
    change signed neg (digitsValue ds) ≠ 0 at nonzero
    change _ = some (Extended.ofDecimal (decide (signed neg (digitsValue ds) < 0))
      (signed neg (digitsValue ds)).natAbs 0)
    cases neg
    · have least : ¬ (digitsValue ds : Int) < 0 := by omega
      simp [signed, least]
    · have positive : 0 < digitsValue ds := by simpa [signed, Nat.pos_iff_ne_zero] using nonzero
      simp [signed, positive]

end SpellsWhole

/-! ## Whole numbers as settings -/

theorem minus_iff {s : String} : s.startsWith "-" = true ↔ s.toList.head? = some '-' := by
  rw [String.startsWith_string_iff]
  change ['-'] <+: s.toList ↔ _
  cases s.toList with
  | nil => simp
  | cons c rest => simp [List.cons_prefix_cons, eq_comm]

/-- A text in quotes that spells a number, and does not put a minus in front of zero. -/
theorem toPort?_text {s : String} {n : Int} (h : SpellsWhole s.toList n)
    (usual : n = 0 → s.toList.head? ≠ some '-') : toPort? (.text s) = portOf? n := by
  apply toPort?_of_toNat?
  have yes := h.ne_word Setting.yesWords (by decide)
  have no := h.ne_word Setting.noWords (by decide)
  unfold Setting.toNat?
  dsimp only
  rw [yes, no, h.wholeOfText]
  rcases h.sign_cases with ⟨minus, most⟩ | ⟨plain, least⟩
  · have below : ¬ 0 ≤ n := fun least => usual (by omega) minus
    simp [minus_iff.2 minus, below]
  · rw [ne_eq, ← minus_iff, Bool.not_eq_true] at plain
    simp [plain, least]

/-! ## Whole numbers in variables -/

section Variable

open Settings (ofVariable)

variable {value : String} {n : Int}

theorem isWord_eq_false_iff (n : Int) : Toml.isWord n = false ↔
    n < -0x8000000000000000 ∨ 0x8000000000000000 ≤ n := by
  rw [← Bool.not_eq_true, Toml.isWord, Bool.and_eq_true, decide_eq_true_eq, decide_eq_true_eq]
  omega

theorem ofVariable_word (h : SpellsWhole value.toList n) (word : Toml.isWord n = true) :
    ofVariable value = .integer n := by
  have whole : (wholeOfText? value.toList).filter Toml.isWord = some n := by
    simp [h.wholeOfText, Option.filter, word]
  unfold ofVariable
  rw [whole]
  dsimp only
  split
  · next yes => exact absurd yes (h.ne_flagWord true)
  · next no => exact absurd no (h.ne_flagWord false)
  · next same _ _ =>
    cases same
    rfl
  · next other _ _ _ => cases other
  · next other _ _ _ => cases other

theorem ofVariable_beyond (h : SpellsWhole value.toList n) (beyond : Toml.isWord n = false) :
    ofVariable value = .float (Extended.ofDecimal (decide (n < 0)) n.natAbs 0) := by
  have whole : (wholeOfText? value.toList).filter Toml.isWord = none := by
    simp [h.wholeOfText, Option.filter, beyond]
  have nonzero : n ≠ 0 := by
    rintro rfl
    cases beyond
  unfold ofVariable
  rw [whole, h.ofText nonzero]
  dsimp only
  split
  · next yes => exact absurd yes (h.ne_flagWord true)
  · next no => exact absurd no (h.ne_flagWord false)
  · next other _ _ => cases other
  · next same _ _ =>
    cases same
    rfl
  · next other _ _ => cases other

/-- A variable with a number that is not below those of 64 bits. -/
theorem toPort?_variable (h : SpellsWhole value.toList n) (least : -0x8000000000000000 ≤ n) :
    toPort? (ofVariable value) = portOf? n := by
  cases word : Toml.isWord n with
  | true => rw [ofVariable_word h word, toPort?_integer]
  | false =>
    have large : 0x8000000000000000 ≤ n := by
      rw [isWord_eq_false_iff] at word
      omega
    have above : decide (n < 0) = false := decide_eq_false (by omega)
    rw [ofVariable_beyond h word, above, portOf?, if_neg (by omega), toPort?]
    cases rounded : (Setting.float (Extended.ofDecimal false n.natAbs 0)).toNat? with
    | none => rfl
    | some k =>
      have size := Extended.roundToNat?_of_large (by omega) rounded
      exact if_neg (by omega)

/-- A variable with a number too far below zero for 64 bits gives port zero. -/
theorem toPort?_below (h : SpellsWhole value.toList n) (below : n < -0x8000000000000000) :
    toPort? (ofVariable value) = some 0 := by
  have minus : decide (n < 0) = true := decide_eq_true (by omega)
  rw [ofVariable_beyond h ((isWord_eq_false_iff n).2 (.inl below)), minus, toPort?,
    Setting.toNat?, Extended.roundToNat?_of_neg]
  rfl

end Variable

end Permit
