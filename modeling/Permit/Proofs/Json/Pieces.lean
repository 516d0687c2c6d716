-- Blanks, words, strings and numbers of JSON as pieces of the text form: what the reader of JSON
-- takes, the grammar of the text form spells with the same value, escape for escape. Each piece
-- stands in a text that goes on with `past`, which the reader of JSON does not see.
import Permit.Proofs.Grammar.Literals
import Permit.Proofs.Json.Drafts
import Permit.Proofs.Json.Scalars
import Permit.Proofs.Json.Tokens

namespace Permit.Json

open Text Expression.Grammar

/-! ## Blanks and words -/

section Blanks

variable {limit level : Nat}

theorem isBlank_space {c : Char} (h : c = ' ' ∨ c = '\n' ∨ c = '\t' ∨ c = '\r') :
    Expression.isBlank c = true := by
  rcases h with rfl | rfl | rfl | rfl <;> rfl

/-- Blanks of JSON are blanks of the text form. -/
theorem skipSpace_chars (past : List Char) {s : List Char} (modest : Modest limit level s) :
    ∃ t, skipSpace (s.map .char) = t.map .char ∧ t.length ≤ s.length ∧ Modest limit level t ∧
      Blanks (s ++ past) (t ++ past) := by
  induction s with
  | nil => exact ⟨[], rfl, Nat.le_refl _, modest, .done⟩
  | cons c s ih =>
    rw [List.map_cons, skipSpace]
    split
    · next space =>
      have plain : isPlain c = true := by rcases space with rfl | rfl | rfl | rfl <;> rfl
      obtain ⟨t, skipped, shorter, modest, blanks⟩ := ih (modest.tail plain)
      exact ⟨t, skipped, Nat.le_succ_of_le shorter, modest, .blank (isBlank_space space) blanks⟩
    · exact ⟨c :: s, rfl, Nat.le_refl _, modest, .done⟩

theorem skipSpace_cons (past : List Char) {s : List Char} {c : Char} {rest : List Glyph}
    (modest : Modest limit level s) (h : skipSpace (s.map .char) = .char c :: rest) :
    ∃ r, rest = r.map .char ∧ r.length < s.length ∧ Modest limit level (c :: r) ∧
      Blanks (s ++ past) (c :: (r ++ past)) := by
  obtain ⟨t, skipped, shorter, modest, blanks⟩ := skipSpace_chars past modest
  rw [skipped] at h
  obtain ⟨d, r, rfl, same, rfl⟩ := List.map_eq_cons_iff.1 h
  cases same
  exact ⟨r, rfl, shorter, modest, blanks⟩

theorem scanWord_chars {w s : List Char} {rest : List Glyph}
    (h : scanWord w (s.map .char) = .ok rest) : ∃ r, s = w ++ r ∧ rest = r.map .char := by
  induction w generalizing s with
  | nil =>
    cases h
    exact ⟨s, rfl, rfl⟩
  | cons c w ih =>
    cases s with
    | nil => cases h
    | cons d s =>
      rw [List.map_cons, scanWord] at h
      split at h
      · next same =>
        obtain ⟨r, rfl, rfl⟩ := ih h
        cases same
        exact ⟨r, rfl, rfl⟩
      · cases h

end Blanks

/-! ## Strings -/

section Strings

theorem hexDigit?_char (c : Char) : hexDigit? (.char c) = Expression.hexValue? c := rfl

/-- A hexadecimal digit is neither a quote nor a backslash. -/
theorem hexValue?_apart {c : Char} {n : Nat} (h : Expression.hexValue? c = some n) :
    c ≠ '"' ∧ c ≠ '\\' := by
  constructor
  · rintro rfl
    cases h
  · rintro rfl
    cases h

theorem scanHex_chars (past : List Char) {s : List Char} {n : Nat} {rest : List Glyph}
    (h : scanHex (s.map .char) = .ok (n, rest)) : ∃ r, rest = r.map .char ∧
      HexFour (s ++ past) n (r ++ past) ∧ unquoted .inside s = unquoted .inside r := by
  unfold scanHex at h
  split at h
  · cases h
  · rcases s with _ | ⟨a, _ | ⟨b, _ | ⟨c, _ | ⟨d, s⟩⟩⟩⟩
    · cases h
    · cases h
    · cases h
    · cases h
    · simp only [List.map_cons, hexDigit?_char] at h
      split at h
      · next ha hb hc hd =>
        cases h
        refine ⟨s, rfl, .mk ha hb hc hd, ?_⟩
        rw [unquoted_inside (hexValue?_apart ha).1 (hexValue?_apart ha).2,
          unquoted_inside (hexValue?_apart hb).1 (hexValue?_apart hb).2,
          unquoted_inside (hexValue?_apart hc).1 (hexValue?_apart hc).2,
          unquoted_inside (hexValue?_apart hd).1 (hexValue?_apart hd).2]
      · cases h

theorem scanSecond_chars {c : Char} {s : List Char} {rest : List Glyph}
    (h : scanSecond c (s.map .char) = .ok rest) : ∃ r, s = c :: r ∧ rest = r.map .char := by
  cases s with
  | nil => cases h
  | cons d s =>
    rw [List.map_cons, scanSecond] at h
    split at h
    · next same =>
      cases same
      cases h
      exact ⟨s, rfl, rfl⟩
    · cases h

/-- The character that is read after a backslash and the form that it has, in front of a body. -/
theorem scanUnicode_chars (past : List Char) {s : List Char} {c : Char} {rest : List Glyph}
    (h : scanUnicode (s.map .char) = .ok (c, rest)) : ∃ r, rest = r.map .char ∧
      (∀ cs t, Body (r ++ past) cs t → Body ('\\' :: 'u' :: (s ++ past)) (c :: cs) t) ∧
      unquoted .inside s = unquoted .inside r := by
  unfold scanUnicode at h
  split at h
  · cases h
  · next code rest first =>
    obtain ⟨t, rfl, digits, skipped⟩ := scanHex_chars past first
    split at h
    · cases h
    · next low =>
      split at h
      · next high =>
        split at h
        · cases h
        · next marks =>
          obtain ⟨_, backslash, letter⟩ := bind_eq_ok marks
          obtain ⟨_, rfl, rfl⟩ := scanSecond_chars backslash
          obtain ⟨t, rfl, rfl⟩ := scanSecond_chars letter
          split at h
          · cases h
          · next second =>
            obtain ⟨u, rfl, more, skippedMore⟩ := scanHex_chars past second
            split at h
            · next isLow =>
              -- The sum must stay as it is, so it is not taken apart by cases.
              simp only [Except.ok.injEq, Prod.mk.injEq] at h
              obtain ⟨rfl, rfl⟩ := h
              refine ⟨u, rfl, fun cs v body => .pair digits more high isLow body, ?_⟩
              rw [skipped, unquoted_escape, skippedMore]
            · cases h
      · next high =>
        cases h
        exact ⟨t, rfl, fun cs u body => .code digits (by omega) body, skipped⟩

theorem scanEscape_chars (past : List Char) {s : List Char} {c : Char} {rest : List Glyph}
    (h : scanEscape (s.map .char) = .ok (c, rest)) : ∃ r, rest = r.map .char ∧
      (∀ cs t, Body (r ++ past) cs t → Body ('\\' :: (s ++ past)) (c :: cs) t) ∧
      unquoted .inside ('\\' :: s) = unquoted .inside r := by
  cases s with
  | nil => cases h
  | cons letter s =>
    have short {d : Char} (escape : ShortEscape letter d) (read : c = d ∧ rest = s.map .char) :
        ∃ r, rest = r.map .char ∧
          (∀ cs t, Body (r ++ past) cs t → Body ('\\' :: (letter :: s ++ past)) (c :: cs) t) ∧
          unquoted .inside ('\\' :: letter :: s) = unquoted .inside r := by
      obtain ⟨rfl, rfl⟩ := read
      exact ⟨s, rfl, fun cs t => .short escape, unquoted_escape _ _⟩
    rw [List.map_cons] at h
    unfold scanEscape at h
    split at h
    · cases h
    · next heq => cases heq; cases h; exact short .quote ⟨rfl, rfl⟩
    · next heq => cases heq; cases h; exact short .backslash ⟨rfl, rfl⟩
    · next heq => cases heq; cases h; exact short .slash ⟨rfl, rfl⟩
    · next heq => cases heq; cases h; exact short .backspace ⟨rfl, rfl⟩
    · next heq => cases heq; cases h; exact short .formFeed ⟨rfl, rfl⟩
    · next heq => cases heq; cases h; exact short .lineFeed ⟨rfl, rfl⟩
    · next heq => cases heq; cases h; exact short .carriageReturn ⟨rfl, rfl⟩
    · next heq => cases heq; cases h; exact short .tab ⟨rfl, rfl⟩
    · next heq =>
      cases heq
      obtain ⟨r, same, form, skipped⟩ := scanUnicode_chars past h
      exact ⟨r, same, form, (unquoted_escape _ _).trans skipped⟩
    · cases h

theorem cons_ok {c : Char} {p : Scanned (List Char)} {cs : List Char} {rest : List Glyph}
    (h : p.cons c = .ok (cs, rest)) : ∃ tail, p = .ok (tail, rest) ∧ cs = c :: tail := by
  cases p with
  | error f => cases h
  | ok x =>
    cases h
    exact ⟨_, rfl, rfl⟩

/-- What is read after the opening quote is a string of the text form. -/
theorem scanStringBody_chars (past : List Char) (fuel : Nat) {s cs : List Char}
    {rest : List Glyph} (h : scanStringBody fuel none (s.map .char) = .ok (cs, rest)) :
    ∃ r, rest = r.map .char ∧ Body (s ++ past) cs (r ++ past) ∧
      unquoted .inside s = unquoted .outside r := by
  induction fuel generalizing s cs with
  | zero => cases h
  | succ fuel ih =>
    cases s with
    | nil => cases h
    | cons c s =>
      rw [List.map_cons, scanStringBody] at h
      split at h
      · next quote =>
        cases h
        subst quote
        exact ⟨s, rfl, .close, by rw [unquoted, if_pos rfl]⟩
      · next quote =>
        split at h
        · next backslash =>
          subst backslash
          split at h
          · cases h
          · next escape =>
            obtain ⟨t, rfl, form, skipped⟩ := scanEscape_chars past escape
            obtain ⟨tail, more, rfl⟩ := cons_ok h
            obtain ⟨r, rfl, body, skippedMore⟩ := ih more
            exact ⟨r, rfl, form _ _ body, skipped.trans skippedMore⟩
        · next backslash =>
          split at h
          · cases h
          · obtain ⟨tail, more, rfl⟩ := cons_ok h
            obtain ⟨r, rfl, body, skipped⟩ := ih more
            exact ⟨r, rfl, .plain quote backslash body,
              (unquoted_inside quote backslash s).trans skipped⟩

theorem scanString_chars (past : List Char) {limit level : Nat} {s : List Char} {name : String}
    {rest : List Glyph} (h : scanString (s.map .char) = .ok (name, rest))
    (modest : Modest limit level ('"' :: s)) : ∃ r, rest = r.map .char ∧
      Quoted ('"' :: (s ++ past)) name (r ++ past) ∧ Modest limit level r := by
  unfold scanString at h
  split at h
  · cases h
  · next body =>
    cases h
    obtain ⟨r, rfl, form, skipped⟩ := scanStringBody_chars past _ body
    exact ⟨r, rfl, .mk form, modest.string skipped⟩

end Strings

/-! ## Numbers -/

/-- The first digit of a zero is a zero. -/
theorem digit_of_zero {c : Char} {cs : List Char} (isDigit : c.isDigit = true)
    (zero : Nat.ofDigitChars 10 (c :: cs) 0 = 0) : c = '0' := by
  rw [Nat.ofDigitChars_cons, Nat.ofDigitChars_eq_ofDigitChars_zero] at zero
  have scale := Nat.pow_pos (n := cs.length) (show 0 < 10 by decide)
  have value : c.toNat - '0'.toNat = 0 := by
    have product := Nat.eq_zero_of_add_eq_zero_right zero
    rcases Nat.mul_eq_zero.1 product with none | none
    · omega
    · omega
  have least : '0'.toNat ≤ c.toNat := by
    simp only [Char.isDigit, Bool.and_eq_true, decide_eq_true_eq] at isDigit
    exact isDigit.1
  exact Char.toNat_inj.1 (by omega)

section Numbers

variable {ds r : List Char} (digits : Digits ds)
  (ends : ∀ c t, r = c :: t → isNumberChar c = false)
include digits ends

/-- All digits are taken, up to what is no part of a number. -/
theorem takeDigits_chars : takeDigits ((ds ++ r).map .char)
    = (ds.map fun c => c.toNat - '0'.toNat, r.map .char) := by
  rw [List.map_append]
  apply takeDigits_append digits.2
  cases r with
  | nil => rfl
  | cons c r =>
    have noDigit : c.isDigit = false := by
      have other := ends c r rfl
      simp only [isNumberChar, Bool.or_eq_false_iff] at other
      exact other.1.1.1.1.1
    simp [takeDigits, digit?, noDigit]

/-- A whole number is read as far as it goes. -/
theorem scanNumber_chars {neg : Bool} {n : Number} {rest : List Glyph}
    (fits : Fits (signed neg (Nat.ofDigitChars 10 ds 0))) (zero : ¬ (neg = true ∧ ds = ['0']))
    (h : scanNumber neg ((ds ++ r).map .char) = .ok (n, rest)) :
    n = .int _ fits ∧ rest = r.map .char := by
  have apart {d : Char} (isChar : isNumberChar d = true) :
      ∀ t, r.map .char ≠ Glyph.char d :: t := by
    intro t same
    obtain ⟨c, u, rfl, first, -⟩ := List.map_eq_cons_iff.1 same
    cases first
    rw [ends d u rfl] at isChar
    cases isChar
  have mark : startsExponent (r.map .char) = false := by
    cases r with
    | nil => rfl
    | cons c r =>
      have other := ends c r rfl
      simp only [isNumberChar, Bool.or_eq_false_iff] at other
      simp [startsExponent, other]
  unfold scanNumber at h
  rw [takeDigits_chars digits ends] at h
  split at h
  · cases h
  · cases h
  · cases h
  · next leading heq =>
    obtain ⟨rfl, rfl⟩ := Prod.mk.inj heq
    have noZero : ¬ (neg = true ∧ Nat.ofDigitChars 10 ds 0 = 0) := by
      rintro ⟨negative, value⟩
      obtain ⟨c, cs, rfl⟩ := List.exists_cons_of_ne_nil digits.1
      obtain rfl := digit_of_zero (digits.2 c (by simp)) value
      cases cs with
      | nil => exact zero ⟨negative, rfl⟩
      | cons d cs => exact leading _ _ rfl
    have whole : (if neg then -(Nat.ofDigitChars 10 ds 0 : Int) else Nat.ofDigitChars 10 ds 0)
        = signed neg (Nat.ofDigitChars 10 ds 0) := rfl
    rw [scanAfterDigits_whole fits whole noZero (apart rfl) mark] at h
    cases h
    exact ⟨rfl, rfl⟩

end Numbers

/-! ## Scalars -/

theorem toReading_settled {α : Type} {f : α → Draft} {scanned : Scanned α} {d : Draft}
    {rest : Option (List Glyph)} {v : Value} (h : scanned.toReading f = (d, rest))
    (settled : d.settle = .ok v) : ∃ a r, scanned = .ok (a, r) ∧ d = f a ∧ rest = some r := by
  unfold Scanned.toReading at h
  split at h
  · cases h
    exact ⟨_, _, rfl, rfl, rfl⟩
  · cases h
    cases settled

/-- The reader takes `a` off the start of `s`: blanks and a form of it. What it leaves is shorter
and within the bounds. -/
def Takes {α : Type} (limit level : Nat) (past : List Char) (form : Form α) (s : List Char) (a : α)
    (rest : Option (List Glyph)) : Prop :=
  ∃ t r, rest = some (r.map .char) ∧ r.length < s.length ∧ Modest limit level r ∧
    Blanks (s ++ past) t ∧ form t a (r ++ past)

section Scalars

variable {limit level : Nat} {past s : List Char} {d : Draft} {rest : Option (List Glyph)}
  {v : Value}

theorem readWord_chars {word : String} {c : Char} {d₀ : Draft} {w : Value}
    (whole : d₀.settle = .ok w) (plain : (c :: word.toList).all isPlain = true)
    (form : ∀ r, Scalar (c :: word.toList ++ r) w r)
    (h : readWord word d₀ (s.map .char) = (d, rest)) (settled : d.settle = .ok v)
    (modest : Modest limit level (c :: s)) : Takes limit level past Scalar (c :: s) v rest := by
  unfold readWord at h
  split at h
  · next found =>
    cases h
    rw [whole] at settled
    cases settled
    obtain ⟨r, rfl, rfl⟩ := scanWord_chars found
    have after := Modest.word (w := c :: word.toList) modest (List.all_eq_true.1 plain)
    refine ⟨_, r, rfl, ?_, after, .done, ?_⟩
    · simp only [List.length_cons, List.length_append]
      omega
    · simpa using form (r ++ past)
  · cases h
    cases settled

theorem readString_chars (h : (scanString (s.map .char)).toReading Draft.str = (d, rest))
    (settled : d.settle = .ok v) (modest : Modest limit level ('"' :: s)) :
    Takes limit level past Scalar ('"' :: s) v rest := by
  obtain ⟨name, _, scanned, rfl, rfl⟩ := toReading_settled h settled
  cases settled
  obtain ⟨r, rfl, quoted, modest⟩ := scanString_chars past scanned modest
  have shorter := quoted.length_lt
  simp only [List.length_cons, List.length_append] at shorter
  refine ⟨_, r, rfl, ?_, modest, .done, .string quoted⟩
  simp only [List.length_cons]
  omega

/-- After its sign a whole number is read up to its end. -/
theorem readNumber_chars {minus ds r : List Char} {neg : Bool} (sign : Minus minus neg)
    (digits : Digits ds) (fits : Fits (signed neg (Nat.ofDigitChars 10 ds 0)))
    (zero : minus ++ ds ≠ ['-', '0']) (ends : ∀ c t, r = c :: t → isNumberChar c = false)
    (h : (scanNumber neg ((ds ++ r).map .char)).toReading Draft.num = (d, rest))
    (settled : d.settle = .ok v) (modest : Modest limit level r) :
    Takes limit level past Scalar (minus ++ ds ++ r) v rest := by
  obtain ⟨n, _, scanned, rfl, rfl⟩ := toReading_settled h settled
  cases settled
  have noZero : ¬ (neg = true ∧ ds = ['0']) := by
    rintro ⟨rfl, rfl⟩
    cases sign
    exact zero rfl
  obtain ⟨rfl, rfl⟩ := scanNumber_chars digits ends fits noZero scanned
  have length := List.length_pos_iff.2 digits.1
  refine ⟨_, r, rfl, ?_, modest, .done, ?_⟩
  · simp only [List.length_append]
    omega
  · rw [List.append_assoc]
    exact .number (.whole sign digits (dif_pos fits))

/-- A value that is no array and no object is a literal of the text form. -/
theorem readScalar_chars (h : readScalar (s.map .char) = (d, rest)) (settled : d.settle = .ok v)
    (modest : Modest limit level s) : Takes limit level past Scalar s v rest := by
  cases s with
  | nil =>
    cases h
    cases settled
  | cons c s =>
    rw [List.map_cons] at h
    unfold readScalar at h
    split at h
    · next heq => cases heq
    · next heq =>
      cases heq
      exact readWord_chars rfl (by decide) (fun r => .null) h settled modest
    · next heq =>
      cases heq
      exact readWord_chars rfl (by decide) (fun r => .true) h settled modest
    · next heq =>
      cases heq
      exact readWord_chars rfl (by decide) (fun r => .false) h settled modest
    · next heq =>
      cases heq
      exact readString_chars h settled modest
    · next heq =>
      cases heq
      obtain ⟨w, r, text, ⟨zero, minus, neg, ds, sign, digits, rfl, fits⟩, ends, after⟩ :=
        modest.number rfl
      cases sign with
      | present =>
        cases text
        exact readNumber_chars .present digits fits zero ends h settled after
      | absent =>
        obtain ⟨c, t, first, isDigit⟩ := digits.head (s := r)
        rw [List.nil_append, first] at text
        cases text
        cases isDigit
    · next heq =>
      cases heq
      split at h
      · next found =>
        have isDigit : c.isDigit = true := by
          by_contra other
          simp [digit?, other] at found
        obtain ⟨w, r, text, ⟨zero, minus, neg, ds, sign, digits, rfl, fits⟩, ends, after⟩ :=
          modest.number (by simp [startsNumber, isDigit])
        cases sign with
        | present =>
          cases text
          cases isDigit
        | absent =>
          rw [List.nil_append] at text
          rw [← List.map_cons, text] at h
          rw [text]
          exact readNumber_chars .absent digits fits zero ends h settled after
      · cases h
        cases settled

end Scalars

end Permit.Json
