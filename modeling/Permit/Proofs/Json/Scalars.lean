-- Reading the scalars that were written: words, strings and whole numbers. A scalar ends at
-- the end of the text, at a comma or at a closing bracket, and nothing after it is read.
import Permit.Json.Reader
import Permit.Proofs.Values

namespace Permit.Json

open Text

/-- The text ends here, or a comma or a closing bracket follows. -/
inductive Ends : List Glyph → Prop
  | text : Ends []
  | mark {c : Char} (rest : List Glyph) (h : c = ',' ∨ c = ']' ∨ c = '\x7d') :
    Ends (.char c :: rest)

/-! ## Strings -/

theorem hexDigit?_hexDigit : ∀ n < 16, hexDigit? (.char (hexDigit n)) = some n := by decide

/-- The digits of a control character stand for it. -/
theorem scanUnicode_control {c : Char} (control : c.toNat < 0x20) (rest : List Glyph) :
    scanUnicode (.char '0' :: .char '0' :: .char (hexDigit (c.toNat / 16)) ::
      .char (hexDigit (c.toNat % 16)) :: rest) = .ok (c, rest) := by
  have zero : hexDigit? (.char '0') = some 0 := rfl
  have first := hexDigit?_hexDigit (c.toNat / 16) (by omega)
  have second := hexDigit?_hexDigit (c.toNat % 16) (by omega)
  have code : ((0 * 16 + 0) * 16 + c.toNat / 16) * 16 + c.toNat % 16 = c.toNat := by omega
  have four : ¬ byteCount (.char '0' :: .char '0' :: .char (hexDigit (c.toNat / 16)) ::
      .char (hexDigit (c.toNat % 16)) :: rest) < 4 := by
    have third := Char.utf8Size_pos (hexDigit (c.toNat / 16))
    have fourth := Char.utf8Size_pos (hexDigit (c.toNat % 16))
    have one : Char.utf8Size '0' = 1 := rfl
    simp only [byteCount, Glyph.size, one]
    omega
  have low : ¬ (0xDC00 ≤ c.toNat ∧ c.toNat < 0xE000) := by omega
  have high : ¬ (0xD800 ≤ c.toNat ∧ c.toNat < 0xDC00) := by omega
  rw [scanUnicode, scanHex, if_neg four]
  simp only [zero, first, second, code]
  rw [if_neg low, if_neg high, Char.ofNat_toNat]

/-- One written character is read as that character. -/
theorem scanStringBody_escape (fuel : Nat) (c : Char) (rest : List Glyph) :
    scanStringBody (fuel + 1) none ((escape c).map .char ++ rest)
      = (scanStringBody fuel none rest).cons c := by
  unfold escape
  split
  · rfl
  · rfl
  · rfl
  · rfl
  · rfl
  · rfl
  · rfl
  · next quote backslash _ _ _ _ _ =>
    split
    · next control =>
      have body : scanEscape (.char 'u' :: .char '0' :: .char '0' ::
          .char (hexDigit (c.toNat / 16)) :: .char (hexDigit (c.toNat % 16)) :: rest)
          = .ok (c, rest) := scanUnicode_control control rest
      simp [scanStringBody, body]
    · next plain =>
      rw [List.map_cons, List.map_nil, List.singleton_append, scanStringBody, if_neg quote,
        if_neg backslash, if_neg plain]
      rfl

theorem scanStringBody_quoted (cs : List Char) (fuel : Nat) (enough : cs.length < fuel)
    (rest : List Glyph) :
    scanStringBody fuel none ((cs.flatMap escape).map .char ++ .char '"' :: rest)
      = .ok (cs, rest) := by
  induction cs generalizing fuel with
  | nil =>
    cases fuel with
    | zero => cases enough
    | succ fuel => rfl
  | cons c cs ih =>
    cases fuel with
    | zero => cases enough
    | succ fuel =>
      rw [List.flatMap_cons, List.map_append, List.append_assoc, scanStringBody_escape,
        ih fuel (Nat.lt_of_succ_lt_succ enough)]
      rfl

/-- An escape is at least as long as its character. -/
theorem length_le_flatMap_escape (cs : List Char) :
    cs.length ≤ (cs.flatMap escape).length := by
  induction cs with
  | nil => simp
  | cons c cs ih =>
    have one : 1 ≤ (escape c).length := by
      unfold escape
      split <;> try simp
      split <;> simp
    rw [List.flatMap_cons, List.length_append, List.length_cons]
    omega

/-- A string reads back after its opening quote. -/
theorem scanString_quote (s : String) (rest : List Glyph) :
    scanString ((s.toList.flatMap escape).map .char ++ .char '"' :: rest) = .ok (s, rest) := by
  have enough : s.toList.length
      < ((s.toList.flatMap escape).map Glyph.char ++ .char '"' :: rest).length + 1 := by
    have length := length_le_flatMap_escape s.toList
    rw [List.length_append, List.length_map]
    omega
  rw [scanString, scanStringBody_quoted _ _ enough]
  simp

/-! ## Whole numbers -/

theorem digit?_of_isDigit {c : Char} (h : c.isDigit = true) :
    digit? (.char c) = some (c.toNat - '0'.toNat) := by
  simp [digit?, h]

theorem takeDigits_of_ends {rest : List Glyph} (ends : Ends rest) :
    takeDigits rest = ([], rest) := by
  cases ends with
  | text => rfl
  | mark rest h => rcases h with rfl | rfl | rfl <;> rfl

/-- All digits are taken, up to where they end. -/
theorem takeDigits_append {cs : List Char} (digits : ∀ c ∈ cs, c.isDigit = true)
    {rest : List Glyph} (stops : takeDigits rest = ([], rest)) :
    takeDigits (cs.map .char ++ rest) = (cs.map fun c => c.toNat - '0'.toNat, rest) := by
  induction cs with
  | nil => exact stops
  | cons c cs ih =>
    have first := digit?_of_isDigit (digits c (by simp))
    simp [takeDigits, first, ih fun d hd => digits d (by simp [hd])]

/-- A significand takes all digits of a number of 64 bits. -/
theorem extend_of_lt {cs : List Char} {n : Nat}
    (small : Nat.ofDigitChars 10 cs n < 0x10000000000000000) :
    extend n (cs.map fun c => c.toNat - '0'.toNat) = (Nat.ofDigitChars 10 cs n, []) := by
  induction cs generalizing n with
  | nil => rfl
  | cons c cs ih =>
    rw [Nat.ofDigitChars_cons] at small ⊢
    have prefixed : 10 * n + (c.toNat - '0'.toNat)
        ≤ Nat.ofDigitChars 10 cs (10 * n + (c.toNat - '0'.toNat)) := by
      rw [Nat.ofDigitChars_eq_ofDigitChars_zero]
      have scale := Nat.pow_pos (n := cs.length) (show 0 < 10 by decide)
      have grows := Nat.le_mul_of_pos_left (10 * n + (c.toNat - '0'.toNat)) scale
      omega
    have fits : ¬ 0x10000000000000000 ≤ n * 10 + (c.toNat - '0'.toNat) := by omega
    rw [List.map_cons, extend, if_neg fits, Nat.mul_comm n 10]
    exact ih small

theorem natDigits_head (n : Nat) : ∃ c cs, natDigits n = c :: cs ∧ c.isDigit = true := by
  obtain ⟨c, cs, eq⟩ := List.exists_cons_of_ne_nil
    (show natDigits n ≠ [] from Nat.toDigits_ne_nil)
  have member : c ∈ Nat.toDigits 10 n := by
    rw [show Nat.toDigits 10 n = c :: cs from eq]
    exact List.mem_cons_self
  exact ⟨c, cs, eq, Nat.isDigit_of_mem_toDigits (by decide) (by decide) member⟩

/-- Only the digits of zero start with a zero. -/
theorem natDigits_cases (n : Nat) :
    natDigits n = ['0'] ∨ ∃ c cs, natDigits n = c :: cs ∧ c.toNat - '0'.toNat ≠ 0 := by
  induction n using Nat.strongRecOn with
  | ind n ih =>
    unfold natDigits at ih ⊢
    by_cases small : n < 10
    · rw [Nat.toDigits_of_lt_base small]
      have digits : ∀ n < 10, n = 0 ∨ n.digitChar.toNat - '0'.toNat ≠ 0 := by decide
      rcases digits n small with rfl | digit
      · exact .inl rfl
      · exact .inr ⟨_, [], rfl, digit⟩
    · rw [Nat.toDigits_of_base_le (by decide) (by omega)]
      rcases ih (n / 10) (by omega) with zero | ⟨c, cs, eq, digit⟩
      · have value := Nat.ofDigitChars_ten_toDigits (n := n / 10)
        rw [zero] at value
        have none : n / 10 = 0 := value.symm
        omega
      · rw [eq]
        exact .inr ⟨c, _, rfl, digit⟩

/-- The digits of a number of 64 bits give the number, if neither a point nor an exponent
follows. -/
theorem scanAfterDigits_whole {cs : List Char} {i : Int} (fits : Fits i) {neg : Bool}
    (whole : (if neg then -(Nat.ofDigitChars 10 cs 0 : Int) else Nat.ofDigitChars 10 cs 0) = i)
    (zero : ¬ (neg = true ∧ Nat.ofDigitChars 10 cs 0 = 0)) {rest : List Glyph}
    (point : ∀ t, rest ≠ .char '.' :: t) (mark : startsExponent rest = false) :
    scanAfterDigits neg (cs.map fun c => c.toNat - '0'.toNat) rest = .ok (.int i fits, rest) := by
  have small : Nat.ofDigitChars 10 cs 0 < 0x10000000000000000 := by
    unfold Fits at fits
    split at whole <;> omega
  have exact : (if neg = true ∧ Nat.ofDigitChars 10 cs 0 = 0 then none
      else Number.int? (if neg then -(Nat.ofDigitChars 10 cs 0 : Int)
        else Nat.ofDigitChars 10 cs 0)) = some (.int i fits) := by
    rw [if_neg zero, whole]
    exact dif_pos fits
  unfold scanAfterDigits
  rw [extend_of_lt small]
  dsimp only
  split
  · next t => exact absurd rfl (point t)
  · simp [mark, exact]

/-- The digits that are written for a number of 64 bits give it back. -/
theorem scanAfterDigits_natDigits {i : Int} (fits : Fits i) {neg : Bool}
    (sign : neg = decide (i < 0)) {rest : List Glyph} (ends : Ends rest) :
    scanAfterDigits neg ((natDigits i.natAbs).map fun c => c.toNat - '0'.toNat) rest
      = .ok (.int i fits, rest) := by
  have value : Nat.ofDigitChars 10 (natDigits i.natAbs) 0 = i.natAbs :=
    Nat.ofDigitChars_ten_toDigits
  apply scanAfterDigits_whole fits
  · rw [value, sign]
    by_cases negative : i < 0
    · rw [decide_eq_true negative, if_pos rfl]
      omega
    · rw [decide_eq_false negative, if_neg (by decide)]
      omega
  · rw [value, sign]
    simp only [decide_eq_true_eq]
    omega
  · rintro t rfl
    cases ends with
    | mark _ h => rcases h with h | h | h <;> cases h
  · cases ends with
    | text => rfl
    | mark rest h => rcases h with rfl | rfl | rfl <;> rfl

/-- A number of 64 bits reads back after its sign. -/
theorem scanNumber_natDigits {i : Int} (fits : Fits i) {neg : Bool} (sign : neg = decide (i < 0))
    {rest : List Glyph} (ends : Ends rest) :
    scanNumber neg ((natDigits i.natAbs).map .char ++ rest) = .ok (.int i fits, rest) := by
  have digits : ∀ c ∈ natDigits i.natAbs, c.isDigit = true :=
    fun _ hc => Nat.isDigit_of_mem_toDigits (by decide) (by decide) hc
  have taken := takeDigits_append digits (takeDigits_of_ends ends)
  have after := scanAfterDigits_natDigits fits sign ends
  unfold scanNumber
  rw [taken]
  rcases natDigits_cases i.natAbs with zero | ⟨c, cs, eq, digit⟩
  · rw [zero] at after ⊢
    exact after
  · rw [eq] at after ⊢
    split
    · next heq => cases heq
    · next heq => cases heq
    · next heq =>
      simp only [List.map_cons, Prod.mk.injEq, List.cons.injEq] at heq
      exact absurd heq.1.1 digit
    · next heq =>
      obtain ⟨rfl, rfl⟩ := Prod.mk.inj heq
      exact after

/-! ## Scalars -/

theorem readScalar_digit {c : Char} (digit : c.isDigit = true) (s : List Glyph) :
    readScalar (.char c :: s) = (scanNumber false (.char c :: s)).toReading Draft.num := by
  unfold readScalar
  split
  · next heq => cases heq
  · next heq => cases heq; cases digit
  · next heq => cases heq; cases digit
  · next heq => cases heq; cases digit
  · next heq => cases heq; cases digit
  · next heq => cases heq; cases digit
  · next heq =>
    cases heq
    simp [digit?_of_isDigit digit]

/-- A value that is no array and no object reads back. -/
theorem readScalar_write {v : Value} (scalar : v.depth = 0) (whole : v.Integral)
    {rest : List Glyph} (ends : Ends rest) :
    readScalar (v.write.map .char ++ rest) = (v.toDraft, some rest) := by
  cases v with
  | null => rfl
  | bool b => cases b <;> rfl
  | num n =>
    cases n with
    | float x => exact absurd whole (by simp [Value.Integral])
    | int i fits =>
      have read := scanNumber_natDigits fits rfl ends
      rw [Value.write, Number.write]
      unfold intDigits
      by_cases negative : i < 0
      · rw [decide_eq_true negative] at read
        simp [negative, readScalar, read, Scanned.toReading, Value.toDraft]
      · rw [decide_eq_false negative] at read
        rw [if_neg negative]
        obtain ⟨c, cs, eq, digit⟩ := natDigits_head i.natAbs
        rw [eq, List.map_cons, List.cons_append] at read ⊢
        rw [readScalar_digit digit, read]
        rfl
  | str s =>
    have read := scanString_quote s rest
    simp [Value.write, quote, readScalar, read, Scanned.toReading, Value.toDraft]
  | arr items => cases scalar
  | obj members => cases scalar

end Permit.Json
