-- A JSON text outside of its strings: how deep its arrays and objects nest, and which of its words
-- are numbers. Both are told from the characters alone, whether or not the text is one of JSON.
import Permit.Proofs.Grammar.Words

namespace Permit.Json

open Expression.Grammar

/-! ## Strings -/

/-- Where a character stands: outside of strings, inside of one, or after a backslash there. -/
inductive Place where
  | outside
  | inside
  | escaped

/-- The text without its strings. Of each the opening quote stays. -/
def unquoted : Place → List Char → List Char
  | _, [] => []
  | .outside, c :: s => c :: unquoted (if c = '"' then .inside else .outside) s
  | .inside, c :: s =>
    unquoted (if c = '"' then .outside else if c = '\\' then .escaped else .inside) s
  | .escaped, _ :: s => unquoted .inside s

theorem unquoted_outside {c : Char} (quote : c ≠ '"') (s : List Char) :
    unquoted .outside (c :: s) = c :: unquoted .outside s := by
  rw [unquoted, if_neg quote]

theorem unquoted_quote (s : List Char) :
    unquoted .outside ('"' :: s) = '"' :: unquoted .inside s := by
  rw [unquoted, if_pos rfl]

theorem unquoted_inside {c : Char} (quote : c ≠ '"') (backslash : c ≠ '\\') (s : List Char) :
    unquoted .inside (c :: s) = unquoted .inside s := by
  rw [unquoted, if_neg quote, if_neg backslash]

theorem unquoted_escape (c : Char) (s : List Char) :
    unquoted .inside ('\\' :: c :: s) = unquoted .inside s := by
  rw [unquoted, if_neg (by decide), if_pos rfl, unquoted]

theorem unquoted_append {w : List Char} (quotes : ∀ c ∈ w, c ≠ '"') (s : List Char) :
    unquoted .outside (w ++ s) = w ++ unquoted .outside s := by
  induction w with
  | nil => rfl
  | cons c w ih =>
    rw [List.cons_append, unquoted_outside (quotes c (by simp)),
      ih fun d hd => quotes d (by simp [hd]), List.cons_append]

/-! ## Nesting -/

/-- The most arrays and objects that are open at once from here on, if some are already. -/
def deepest (level : Nat) : List Char → Nat
  | [] => 0
  | c :: s =>
    if c = '[' ∨ c = '\x7b' then max (level + 1) (deepest (level + 1) s)
    else if c = ']' ∨ c = '\x7d' then deepest (level - 1) s
    else deepest level s

/-- How deep the arrays and objects of a text nest. -/
def nesting (text : List Char) : Nat := deepest 0 (unquoted .outside text)

/-! ## Numbers -/

/-- The characters that numbers are written with. -/
def isNumberChar (c : Char) : Bool :=
  c.isDigit || c == '-' || c == '+' || c == '.' || c == 'e' || c == 'E'

/-- The characters that numbers start with. -/
def startsNumber (c : Char) : Bool := c.isDigit || c == '-'

/-- The words that start like a number, each as far as its characters go. While `within` one, the
next does not start. -/
def numbersFrom (within : Bool) : List Char → List (List Char)
  | [] => []
  | c :: s =>
    if within && isNumberChar c then numbersFrom true s
    else if startsNumber c then (c :: s.takeWhile isNumberChar) :: numbersFrom true s
    else numbersFrom false s

/-- The numbers of a text, as they are written. -/
def numbers (text : List Char) : List (List Char) := numbersFrom false (unquoted .outside text)

/-- Digits with or without a minus sign, for a whole number of 64 bits; but not the zero with a
minus sign. -/
def WholeNumber (word : List Char) : Prop :=
  word ≠ ['-', '0'] ∧ ∃ minus neg ds, Minus minus neg ∧ Digits ds ∧ word = minus ++ ds ∧
    Fits (signed neg (Nat.ofDigitChars 10 ds 0))

theorem numbersFrom_append {w : List Char} (inside : ∀ c ∈ w, isNumberChar c = true)
    {s : List Char} (ends : ∀ c t, s = c :: t → isNumberChar c = false) :
    numbersFrom true (w ++ s) = numbersFrom false s := by
  induction w with
  | nil =>
    cases s with
    | nil => rfl
    | cons c t =>
      rw [List.nil_append, numbersFrom, numbersFrom, ends c t rfl, Bool.and_false, Bool.and_false]
  | cons c w ih =>
    rw [List.cons_append, numbersFrom, inside c (by simp)]
    exact ih fun d hd => inside d (by simp [hd])

/-! ## Texts within bounds -/

/-- From here on the arrays and objects nest within the limit, with so many open already, and each
number is whole. -/
structure Modest (limit level : Nat) (s : List Char) : Prop where
  shallow : deepest level (unquoted .outside s) ≤ limit
  whole : ∀ w ∈ numbersFrom false (unquoted .outside s), WholeNumber w

/-- The characters that neither open nor close anything and start no number. -/
def isPlain (c : Char) : Bool :=
  (c != '"' && ((c != '[' && c != '\x7b') && (c != ']' && c != '\x7d'))) && !startsNumber c

theorem isNumberChar_of_startsNumber {c : Char} (h : startsNumber c = true) :
    isNumberChar c = true := by
  simp only [startsNumber, Bool.or_eq_true] at h
  simp only [isNumberChar, Bool.or_eq_true]
  rcases h with h | h <;> simp [h]

/-- No digit, mark, sign or letter of a number is a quote or opens or closes anything. -/
theorem isNumberChar_apart {c d : Char} (h : isNumberChar c = true)
    (other : isNumberChar d = false) : c ≠ d := by
  rintro rfl
  rw [h] at other
  cases other

theorem deepest_append {w : List Char} (inside : ∀ c ∈ w, isNumberChar c = true) (level : Nat)
    (s : List Char) : deepest level (w ++ s) = deepest level s := by
  induction w with
  | nil => rfl
  | cons c w ih =>
    have apart {d : Char} := isNumberChar_apart (d := d) (inside c (by simp))
    rw [List.cons_append, deepest, if_neg (by simp [apart (d := '[') rfl, apart (d := '\x7b') rfl]),
      if_neg (by simp [apart (d := ']') rfl, apart (d := '\x7d') rfl]),
      ih fun d hd => inside d (by simp [hd])]

namespace Modest

variable {limit level : Nat} {c : Char} {s : List Char}

theorem head (h : Modest limit level (c :: s)) (quote : c ≠ '"') (start : startsNumber c = false) :
    deepest level (c :: unquoted .outside s) ≤ limit ∧
      ∀ w ∈ numbersFrom false (unquoted .outside s), WholeNumber w := by
  obtain ⟨shallow, whole⟩ := h
  rw [unquoted_outside quote] at shallow whole
  rw [numbersFrom, Bool.false_and, if_neg (by decide), start] at whole
  exact ⟨shallow, whole⟩

theorem tail (h : Modest limit level (c :: s)) (plain : isPlain c = true) :
    Modest limit level s := by
  simp only [isPlain, Bool.and_eq_true, bne_iff_ne, ne_eq, Bool.not_eq_true'] at plain
  obtain ⟨⟨quote, opens, closes⟩, start⟩ := plain
  obtain ⟨shallow, whole⟩ := h.head quote start
  rw [deepest, if_neg (by simp [opens]), if_neg (by simp [closes])] at shallow
  exact ⟨shallow, whole⟩

/-- Past a word of such characters. -/
theorem word {w : List Char} (h : Modest limit level (w ++ s))
    (plain : ∀ c ∈ w, isPlain c = true) : Modest limit level s := by
  induction w with
  | nil => exact h
  | cons c w ih => exact ih (h.tail (plain c (by simp))) fun d hd => plain d (by simp [hd])

theorem opening (h : Modest limit level (c :: s)) (opens : c = '[' ∨ c = '\x7b') :
    level + 1 ≤ limit ∧ Modest limit (level + 1) s := by
  have quote : c ≠ '"' := by rcases opens with rfl | rfl <;> decide
  have start : startsNumber c = false := by rcases opens with rfl | rfl <;> rfl
  obtain ⟨shallow, whole⟩ := h.head quote start
  rw [deepest, if_pos opens, Nat.max_le] at shallow
  exact ⟨shallow.1, shallow.2, whole⟩

theorem closing (h : Modest limit (level + 1) (c :: s)) (closes : c = ']' ∨ c = '\x7d') :
    Modest limit level s := by
  have quote : c ≠ '"' := by rcases closes with rfl | rfl <;> decide
  have start : startsNumber c = false := by rcases closes with rfl | rfl <;> rfl
  have opens : ¬ (c = '[' ∨ c = '\x7b') := by rcases closes with rfl | rfl <;> decide
  obtain ⟨shallow, whole⟩ := h.head quote start
  rw [deepest, if_neg opens, if_pos closes, Nat.add_sub_cancel] at shallow
  exact ⟨shallow, whole⟩

/-- Past a string, of which the quote was read and `s` is what is left. -/
theorem string {r : List Char} (h : Modest limit level ('"' :: s))
    (past : unquoted .inside s = unquoted .outside r) : Modest limit level r := by
  obtain ⟨shallow, whole⟩ := h
  rw [unquoted_quote, past] at shallow whole
  exact ⟨shallow, whole⟩

/-- Past a number, which is whole. -/
theorem number (h : Modest limit level (c :: s)) (start : startsNumber c = true) :
    ∃ w r, c :: s = w ++ r ∧ WholeNumber w ∧ (∀ d t, r = d :: t → isNumberChar d = false) ∧
      Modest limit level r := by
  have parts := List.takeWhile_append_dropWhile (p := isNumberChar) (l := s)
  have more : ∀ d ∈ s.takeWhile isNumberChar, isNumberChar d = true :=
    fun d hd => List.all_eq_true.1 List.all_takeWhile d hd
  have stops := List.head?_dropWhile_not isNumberChar s
  revert parts more stops
  generalize s.takeWhile isNumberChar = w
  generalize s.dropWhile isNumberChar = r
  rintro rfl more stops
  have ends : ∀ d t, r = d :: t → isNumberChar d = false := by
    rintro d t rfl
    exact stops
  have outer : ∀ d t, unquoted .outside r = d :: t → isNumberChar d = false := by
    intro d t first
    cases r with
    | nil => cases first
    | cons e r =>
      rw [unquoted] at first
      cases first
      exact ends d r rfl
  have inside : ∀ d ∈ c :: w, isNumberChar d = true :=
    List.forall_mem_cons.2 ⟨isNumberChar_of_startsNumber start, more⟩
  have quotes : ∀ d ∈ c :: w, d ≠ '"' := fun d hd => isNumberChar_apart (inside d hd) rfl
  obtain ⟨shallow, whole⟩ := h
  rw [← List.cons_append, unquoted_append quotes] at shallow whole
  rw [deepest_append inside] at shallow
  rw [List.cons_append, numbersFrom, Bool.false_and, if_neg (by decide), if_pos start,
    (takeWhile_append_eq more outer).1, numbersFrom_append more outer] at whole
  exact ⟨c :: w, r, rfl, whole _ (by simp), ends, shallow, fun v hv => whole v (by simp [hv])⟩

end Modest

end Permit.Json
