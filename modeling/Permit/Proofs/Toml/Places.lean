-- Words in TOML texts. A word can be a value at the end of a line, in an array or in a table in
-- braces. Wherever the reading of a text comes to one that spells no value, the text is no TOML: a
-- whole number that does not have 64 bits ends it like that.
import Permit.Proofs.Toml.Numbers
import Permit.Toml.Document

namespace Permit.Toml

/-! ## Places -/

/-- The next item starts at the end of the reading, and all items before it are read. -/
inductive ToItem {α : Type} (close : Char) (item : List Char → Option (α × List Char)) :
    List Char → List Char → Prop
  | here {s c t} : skipFiller false s = some (c :: t) → c ≠ close → ToItem close item s (c :: t)
  | later {s c t a r u v} : skipFiller false s = some (c :: t) → c ≠ close →
      item (c :: t) = some (a, r) → skipFiller false r = some (',' :: u) → ToItem close item u v →
      ToItem close item s v

/-- The reading of a value comes to the word: it is the value, or it stands in an item of an array
or a member of a table in braces. -/
inductive ToWord (w : List Char) : Nat → List Char → Prop
  | word {budget s} : (word s).1 = w → ToWord w budget s
  | item {budget s t} : ToItem ']' (value? budget) s t → ToWord w budget t →
      ToWord w (budget + 1) ('[' :: s)
  | member {budget s t key u v a} : ToItem '}' (bracedEntryOf? (value? budget)) s t →
      key? t = some (key, u) → skipFiller false u = some ('=' :: v) →
      skipFiller false v = some a → ToWord w budget a → ToWord w (budget + 1) ('{' :: s)

/-- The next statement starts at the end of the reading, and all statements before it are read. -/
inductive ToStatement : List Char → List Char → Prop
  | here {s t} : skipFiller false s = some t → ToStatement s t
  | later {s t st r u} : skipFiller false s = some t → statement? t = some (st, r) →
      lineDone r = true → ToStatement r u → ToStatement s u

/-- The text without a mark of the byte order in front of it. -/
def withoutMark (s : List Char) : List Char :=
  match s with
  | '\ufeff' :: rest => rest
  | s => s

theorem withoutMark_of_ne {s : List Char} (noMark : ∀ rest, s ≠ '\ufeff' :: rest) :
    withoutMark s = s := by
  unfold withoutMark
  split
  · exact absurd rfl (noMark _)
  · rfl

/-- The reading of a text comes to the word as a value. -/
def ComesTo (text : String) (w : List Char) : Prop :=
  ∃ t key v, ToStatement (withoutMark text.toList) t ∧ key? t = some (key, '=' :: v) ∧
    ToWord w maxNesting (skipSpaces v)

/-! ## Words that are refused -/

theorem ToItem.refused {α : Type} {close : Char} {item : List Char → Option (α × List Char)}
    {s t : List Char} (h : ToItem close item s t) (refused : item t = none) (fuel : Nat) :
    items? close item fuel s = none := by
  induction h generalizing fuel with
  | here next more =>
    cases fuel with
    | zero => rfl
    | succ fuel => simp [items?, next, more, refused]
  | later next more first comma _ ih =>
    cases fuel with
    | zero => rfl
    | succ fuel => simp [items?, next, more, first, comma, ih refused]

/-- A word that is not empty starts with one of its own characters. -/
theorem word_head {s : List Char} (h : (word s).1 ≠ []) :
    ∃ c rest, s = c :: rest ∧ isWordChar c = true := by
  cases s with
  | nil => exact absurd rfl h
  | cons c rest =>
    refine ⟨c, rest, rfl, ?_⟩
    cases isWord : isWordChar c with
    | true => rfl
    | false =>
      have first : (c :: rest).takeWhile isWordChar = [] := by simp [isWord]
      refine absurd ?_ h
      simp [word, first, date?, digits?]

variable {w : List Char}

theorem ToWord.refused {budget : Nat} {s : List Char} (h : ToWord w budget s) (notEmpty : w ≠ [])
    (refused : valueOfWord? w = none) : value? budget s = none := by
  induction h with
  | @word budget s same =>
    obtain ⟨c, rest, rfl, isWord⟩ := word_head (same ▸ notEmpty)
    have apart : c ≠ '[' ∧ c ≠ '{' ∧ c ≠ '"' ∧ c ≠ '\'' := by
      refine ⟨?_, ?_, ?_, ?_⟩ <;> rintro rfl <;> exact absurd isWord (by decide)
    simp [value?, scalar?, apart, same, refused]
  | item items _ ih =>
    simp [value?, items.refused ih]
  | @member budget s t key u v a members isKey sign filler _ ih =>
    have entry : bracedEntryOf? (value? budget) t = none := by
      simp [bracedEntryOf?, isKey, sign, filler, ih]
    simp [value?, members.refused entry]

theorem ToStatement.refused {s t : List Char} (h : ToStatement s t) (more : t ≠ [])
    (refused : statement? t = none) (fuel : Nat) : statementsFrom? fuel s = none := by
  induction h generalizing fuel with
  | @here s t next =>
    cases fuel with
    | zero => rfl
    | succ fuel =>
      rw [statementsFrom?, next]
      simp [refused]
  | @later s t st r u next first line _ ih =>
    cases fuel with
    | zero => rfl
    | succ fuel =>
      have begun : t ≠ [] := by
        rintro rfl
        cases first
      rw [statementsFrom?, next]
      simp [first, line, ih more refused]

/-- A text with a word for a value that spells none is no TOML. -/
theorem ComesTo.refused {text : String} (h : ComesTo text w) (notEmpty : w ≠ [])
    (refused : valueOfWord? w = none) : document? text = none := by
  obtain ⟨t, key, v, statement, isKey, value⟩ := h
  have noValue := value.refused notEmpty refused
  have entry : entryOf? (value? maxNesting) t = none := by
    simp [entryOf?, isKey, noValue]
  have noHeader : statement? t = none := by
    unfold statement?
    split
    · cases isKey
    · cases isKey
    · rw [entry]
      rfl
  have more : t ≠ [] := by
    rintro rfl
    cases isKey
  have statements : statements? text.toList = none := statement.refused more noHeader _
  rw [document?, statements]

/-- A text with a whole number for a value that does not have 64 bits is no TOML. -/
theorem ComesTo.refused_integer {text : String} {i : Int} (h : ComesTo text w)
    (spelled : integer? w = some i) (beyond : isWord i = false) : document? text = none := by
  refine h.refused ?_ (by rw [valueOfWord?_of_integer spelled, if_neg (by simp [beyond])])
  rintro rfl
  cases spelled

end Permit.Toml
