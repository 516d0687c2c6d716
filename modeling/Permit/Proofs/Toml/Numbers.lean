-- Whole numbers in TOML texts. A word that spells one is no date and no time, so it is the number
-- if that has 64 bits and no value if not; and the digits in which a number is printed spell it.
import Permit.Proofs.Grammar.Floats
import Permit.Proofs.Variables
import Permit.Toml.Reader

namespace Permit.Toml

open Expression.Grammar (Digits digits_natDigits)
open Extended (digitsValue)

variable {w : List Char}

/-! ## Numbers apart from dates and times -/

theorem grouped_chars {isDigit : Char → Bool} {s ds : List Char}
    (h : grouped? isDigit s = some ds) : ∀ c ∈ s, isDigit c = true ∨ c = '_' := by
  fun_induction grouped? isDigit s generalizing ds with
  | case1 => cases h
  | case2 c digit =>
    intro d hd
    rw [List.mem_singleton.1 hd]
    exact .inl digit
  | case3 => cases h
  | case4 c rest digit ih =>
    obtain ⟨more, later, -⟩ := Option.map_eq_some_iff.1 h
    intro d hd
    simp only [List.mem_cons] at hd
    rcases hd with rfl | rfl | hd
    · exact .inl digit
    · exact .inr rfl
    · exact ih later d hd
  | case5 => cases h
  | case6 c rest _ _ digit ih =>
    obtain ⟨more, later, -⟩ := Option.map_eq_some_iff.1 h
    intro d hd
    rcases List.mem_cons.1 hd with rfl | hd
    · exact .inl digit
    · exact ih later d hd
  | case7 => cases h

theorem digits?_suffix {n count : Nat} {s r : List Char} {m : Nat}
    (h : digits? n count s = some (m, r)) : r <:+ s := by
  fun_induction digits? n count s with
  | case1 =>
    cases h
    exact List.suffix_refl _
  | case2 => cases h
  | case3 n count c rest digit ih => exact (ih h).trans (List.suffix_cons c rest)
  | case4 => cases h

/-- A date has a hyphen behind its first digit. -/
theorem hyphen_of_date {s : List Char} {x : List Char × List Char} (h : date? s = some x) :
    '-' ∈ s.tail := by
  unfold date? at h
  split at h
  · next read =>
    cases s with
    | nil => cases read
    | cons c rest =>
      rw [digits?] at read
      split at read
      · exact (digits?_suffix read).subset List.mem_cons_self
      · cases read
  · cases h

theorem colon_of_time {s : List Char} {x : List Char × List Char} (h : time? s = some x) :
    ':' ∈ s := by
  unfold time? at h
  split at h
  · cases h
  · next read =>
    unfold hourMinute? at read
    split at read
    · next hour => exact (digits?_suffix hour).subset List.mem_cons_self
    · cases read

theorem moment?_none (noHyphen : '-' ∉ w.tail) (noColon : ':' ∉ w) : moment? w = none := by
  have date : date? w = none := by
    cases read : date? w with
    | none => rfl
    | some x => exact absurd (hyphen_of_date read) noHyphen
  have time : time? w = none := by
    cases read : time? w with
    | none => rfl
    | some x => exact absurd (colon_of_time read) noColon
  rw [moment?, date]
  simp [time]

theorem not_mem_of_grouped {isDigit : Char → Bool} {s ds : List Char} {x : Char}
    (h : grouped? isDigit s = some ds) (notDigit : isDigit x = false) (notScore : x ≠ '_') :
    x ∉ s := by
  intro hx
  rcases grouped_chars h x hx with digit | score
  · rw [notDigit] at digit
    cases digit
  · exact notScore score

theorem grouped_of_decimal {s ds : List Char} (h : decimal? s = some ds) :
    ∃ ds, grouped? Char.isDigit s = some ds := by
  unfold decimal? at h
  split at h
  · cases h
  · exact ⟨ds, h⟩

theorem not_mem_of_sign {s : List Char}
    (h : '-' ∉ (Extended.sign s).2 ∧ ':' ∉ (Extended.sign s).2) : '-' ∉ s.tail ∧ ':' ∉ s := by
  unfold Extended.sign at h
  split at h
  · exact ⟨h.1, by simpa using h.2⟩
  · exact ⟨h.1, by simpa using h.2⟩
  · exact ⟨fun hyphen => h.1 (List.mem_of_mem_tail hyphen), h.2⟩

/-- No whole number is spelled like a date or a time: a hyphen can only come first, and there is no
colon. -/
theorem apart_of_integer {i : Int} (h : integer? w = some i) : '-' ∉ w.tail ∧ ':' ∉ w := by
  have based {base : Nat} {digits : List Char} (mark : Char) (apart : mark ≠ '-' ∧ mark ≠ ':')
      (read : based? base digits = some i) :
      '-' ∉ ('0' :: mark :: digits).tail ∧ ':' ∉ '0' :: mark :: digits := by
    obtain ⟨ds, grouped, -⟩ := Option.map_eq_some_iff.1 read
    have hyphen := not_mem_of_grouped (x := '-') grouped rfl (by decide)
    have colon := not_mem_of_grouped (x := ':') grouped rfl (by decide)
    simp [hyphen, colon, apart.1.symm, apart.2.symm]
  unfold integer? at h
  split at h
  · exact based _ (by decide) h
  · exact based _ (by decide) h
  · exact based _ (by decide) h
  · obtain ⟨ds, read, -⟩ := Option.map_eq_some_iff.1 h
    obtain ⟨ds, grouped⟩ := grouped_of_decimal read
    exact not_mem_of_sign ⟨not_mem_of_grouped grouped rfl (by decide),
      not_mem_of_grouped grouped rfl (by decide)⟩

/-- A word that spells a whole number is that number if it has 64 bits, and no value if not. -/
theorem valueOfWord?_of_integer {i : Int} (spelled : integer? w = some i) :
    valueOfWord? w = if isWord i then some (.integer i) else none := by
  obtain ⟨hyphen, colon⟩ := apart_of_integer spelled
  have yes : w ≠ "true".toList := by
    rintro rfl
    cases spelled
  have no : w ≠ "false".toList := by
    rintro rfl
    cases spelled
  rw [valueOfWord?, if_neg yes, if_neg no, moment?_none hyphen colon]
  simp [number?, spelled]

/-! ## Printed numbers -/

theorem grouped?_digits {ds : List Char} (digits : Digits ds) :
    grouped? Char.isDigit ds = some ds := by
  obtain ⟨notEmpty, all⟩ := digits
  fun_induction grouped? Char.isDigit ds with
  | case1 => exact absurd rfl notEmpty
  | case2 => rfl
  | case3 c other => exact absurd (all c List.mem_cons_self) other
  | case4 c rest =>
    have score := all '_' (List.mem_cons_of_mem _ List.mem_cons_self)
    cases score
  | case5 c rest other => exact absurd (all c List.mem_cons_self) other
  | case6 c rest more _ _ ih =>
    rw [ih more fun d hd => all d (List.mem_cons_of_mem _ hd)]
    rfl
  | case7 c rest _ _ other => exact absurd (all c List.mem_cons_self) other

theorem hexValue?_digit {c : Char} (digit : c.isDigit) :
    Expression.hexValue? c = some (c.toNat - '0'.toNat) := by
  have range := toNat_of_isDigit digit
  exact if_pos ⟨range.1, range.2⟩

/-- To base 10 the value of digits is their number. -/
theorem valueOf_ten {ds : List Char} (digits : ∀ c ∈ ds, c.isDigit) :
    valueOf 10 ds = digitsValue ds := by
  have same (n : Nat) :
      ds.foldl (fun (i : Int) c => 10 * i + ((Expression.hexValue? c).getD 0 : Nat)) n
        = (ds.foldl (fun n c => 10 * n + (c.toNat - '0'.toNat)) n : Nat) := by
    induction ds generalizing n with
    | nil => rfl
    | cons c rest ih =>
      rw [List.foldl_cons, List.foldl_cons, hexValue?_digit (digits c List.mem_cons_self),
        ← ih fun d hd => digits d (List.mem_cons_of_mem _ hd)]
      simp
  exact same 0

/-- Only zero alone starts with a zero. -/
theorem natDigits_ne_zero_cons (n : Nat) (c : Char) (rest : List Char) :
    natDigits n ≠ '0' :: c :: rest := by
  intro same
  rcases Json.natDigits_cases n with zero | ⟨d, ds, eq, positive⟩
  · rw [zero] at same
    cases same
  · rw [eq] at same
    cases same
    exact positive rfl

theorem decimal?_natDigits (n : Nat) : decimal? (natDigits n) = some (natDigits n) := by
  rw [decimal?, grouped?_digits (digits_natDigits n)]
  split
  · next same => exact absurd (Option.some.inj same) (natDigits_ne_zero_cons n _ _)
  · rfl

theorem sign_intDigits (n : Int) :
    Extended.sign (intDigits n) = (decide (n < 0), natDigits n.natAbs) := by
  unfold intDigits
  split
  · next minus =>
    rw [decide_eq_true minus]
    exact sign_append .minus (digits_natDigits _)
  · next plain =>
    rw [decide_eq_false plain]
    exact sign_append .absent (digits_natDigits _)

/-- No printed number starts with the mark of a base. -/
theorem intDigits_ne_mark (n : Int) (mark : Char) (rest : List Char) :
    intDigits n ≠ '0' :: mark :: rest := by
  unfold intDigits
  split
  · intro same
    cases same
  · exact natDigits_ne_zero_cons _ _ _

theorem integer?_intDigits (n : Int) : integer? (intDigits n) = some n := by
  unfold integer?
  split
  · next mark => exact absurd mark (intDigits_ne_mark n _ _)
  · next mark => exact absurd mark (intDigits_ne_mark n _ _)
  · next mark => exact absurd mark (intDigits_ne_mark n _ _)
  · rw [sign_intDigits]
    dsimp only
    have value : digitsValue (natDigits n.natAbs) = n.natAbs := Nat.ofDigitChars_ten_toDigits
    rw [decimal?_natDigits, Option.map_some, valueOf_ten (digits_natDigits _).2, value]
    by_cases minus : n < 0
    · rw [decide_eq_true minus, if_pos rfl, show -(n.natAbs : Int) = n by omega]
    · rw [decide_eq_false minus, if_neg (by decide), show (n.natAbs : Int) = n by omega]

end Permit.Toml
