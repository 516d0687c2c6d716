-- Whole numbers in a text, of any length: a literal of digits is the number that they stand for,
-- or it is no number of 64 bits and the text that holds it is refused.
import Permit.Proofs.Grammar.Places

namespace Permit.Expression.Grammar

open Json

/-! ## A literal of digits -/

section Digits

variable {minus ds : List Char} {neg : Bool} (sign : Minus minus neg) (digits : Digits ds)
include sign digits

theorem literal_of_digits (n : Nat) {r : List Char} (ends : EndsDigits r) :
    literal n (minus ++ ds ++ r)
      = if fits : Fits (signed neg (digitsValue ds)) then .ok (.num (.int _ fits), r)
        else (abort r : Parsed Value).expecting .literal := by
  have whole := number_of_digits sign digits ends
  obtain ⟨c, t, first, head⟩ := digits_start sign digits r
  obtain ⟨-, quote, null, isTrue, isFalse⟩ := number_head head
  rw [first] at whole ⊢
  unfold literal
  rw [string_stops quote, wordLiteral?_none null isTrue isFalse, whole, Number.int?]
  by_cases fits : Fits (signed neg (digitsValue ds))
  · rw [dif_pos fits, dif_pos fits]
    rfl
  · rw [dif_neg fits, dif_neg fits]
    rfl

end Digits

/-! ## A literal of digits somewhere in a text -/

/-- The word and nothing else, taken for the value. -/
def Token (word : List Char) (v : Value) : Form Value := fun s w r => s = word ++ r ∧ w = v

section Digits

variable {minus ds : List Char} {neg : Bool} (sign : Minus minus neg) (digits : Digits ds)
include sign digits

theorem scalar_token (fits : Fits (signed neg (digitsValue ds))) :
    ∀ s w r, Token (minus ++ ds) (.num (.int _ fits)) s w r → Scalar s w r := by
  rintro s w r ⟨rfl, rfl⟩
  exact .number (.whole sign digits (dif_pos fits))

theorem refuses_token (beyond : ¬ Fits (signed neg (digitsValue ds))) (v : Value) (n : Nat) :
    Refuses (literal n) (Token (minus ++ ds) v) := by
  rintro s w r ⟨rfl, rfl⟩ ends
  constructor
  · obtain ⟨c, t, first, head⟩ := digits_start sign digits r
    obtain ⟨⟨blank, sharp⟩, -⟩ := number_head head
    rw [first]
    exact noBlank_cons blank sharp
  · rw [literal_of_digits sign digits n ends.noNumberChar.endsDigits, dif_neg beyond]
    exact Refused.expecting ⟨_, rfl, rfl⟩ _

/-- Digits with or without a minus sign, as many as there are and with zeros in front, are read up
to their end: as the whole number that they stand for if it is one of 64 bits, and else the
reading stops for good. Where they stand among the parameters of a text, in whatever list, group
or chain, the text gives the criteria with that number in it, or nothing at all. -/
theorem integers_are_exact_or_refused :
    (∀ (n : Nat) (r : List Char), EndsDigits r → literal n (minus ++ ds ++ r)
      = if fits : Fits (signed neg (Nat.ofDigitChars 10 ds 0)) then .ok (.num (.int _ fits), r)
        else (abort r : Parsed Value).expecting .literal) ∧
    ∀ (text : String) (c : Criteria Condition),
      (∀ fits : Fits (signed neg (Nat.ofDigitChars 10 ds 0)),
        SpellsAt (Token (minus ++ ds) (.num (.int _ fits))) text.toList c →
          Criteria.ofText text = .ok c) ∧
      (∀ v : Value, ¬ Fits (signed neg (Nat.ofDigitChars 10 ds 0)) →
        SpellsAt (Token (minus ++ ds) v) text.toList c → ∃ e, Criteria.ofText text = .error e) := by
  refine ⟨fun n r ends => literal_of_digits sign digits n ends, fun text c => ⟨?_, ?_⟩⟩
  · intro fits spelt
    have whole := expression_complete (SpellsAt.spells (scalar_token sign digits fits) spelt)
    rw [Criteria.ofText, whole]
  · intro v beyond spelt
    obtain ⟨f, failed⟩ := spelt.refused (refuses_token sign digits beyond v)
    exact ⟨⟨text, f⟩, by rw [Criteria.ofText, failed]⟩

end Digits

/-- A word that is the only parameter of a condition. -/
theorem spellsAt_alone {s rule word : List Char} {k : Condition} {v : Value} (isName : Name rule)
    (same : rule = k.rule.toList) (single : k.params = [v])
    (text : s = rule ++ '(' :: (word ++ [')'])) : SpellsAt (Token word v) s (.leaf k) := by
  have param : LiteralAt (Token word v) maxNesting (word ++ [')']) v [')'] := .inl ⟨rfl, rfl⟩
  have call : CallAt (Token word v) (rule ++ '(' :: (word ++ [')'])) k [] :=
    .mk isName same .done (single ▸ .mk .done (.here param .none) .done)
  rw [text]
  exact ⟨[], .one (.one (.call .done call)), .done⟩

/-- The least whole number of 64 bits is read, with zeros in front as well, and the first one past
the greatest is not. -/
theorem integers_at_the_bounds :
    (∃ k : Condition, Criteria.ofText "R(-009223372036854775808)" = .ok (.leaf k) ∧
      k.params = [.num (.int (-9223372036854775808) (by decide))]) ∧
    ∃ e, Criteria.ofText "R(18446744073709551616)" = .error e := by
  have isName : Name "R".toList := .mk rfl (by simp)
  constructor
  · have digits : Digits "009223372036854775808".toList :=
      ⟨by decide, List.all_eq_true.1 (by decide)⟩
    have fits : Fits (signed true (Nat.ofDigitChars 10 "009223372036854775808".toList 0)) := by
      decide
    let k : Condition := ⟨"R", [.num (.int _ fits)], rfl, by simp [Value.Canonical]⟩
    exact ⟨k, ((integers_are_exact_or_refused .present digits).2 _ _).1 fits
      (spellsAt_alone isName rfl rfl (by decide)), rfl⟩
  · have digits : Digits "18446744073709551616".toList :=
      ⟨by decide, List.all_eq_true.1 (by decide)⟩
    let k : Condition := ⟨"R", [.null], rfl, by simp [Value.Canonical]⟩
    exact ((integers_are_exact_or_refused .absent digits).2 _ (.leaf k)).2 .null (by decide)
      (spellsAt_alone isName rfl rfl (by decide))

end Permit.Expression.Grammar
