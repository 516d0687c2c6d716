-- The grammar of expressions. A form relates a text to what its start spells and to what is
-- left after that, so a form can look at what follows it. Which derivation a reader would
-- find is left open.
import Permit.Expression.Reader

namespace Permit.Expression.Grammar

open Json

/-- The text spells an `α` at its start and goes on with the rest. -/
abbrev Form (α : Type) := List Char → α → List Char → Prop

/-! ## Blanks -/

/-- Where a comment ends: at the end of the text, or before a line feed that may stand
after a carriage return. -/
inductive EndsLine : List Char → Prop
  | text : EndsLine []
  | lineFeed {s} : EndsLine ('\n' :: s)
  | carriageReturn {s} : EndsLine ('\r' :: '\n' :: s)

/-- A run of blanks and comments, and what is left after it. -/
inductive Blanks : List Char → List Char → Prop
  | done {s} : Blanks s s
  | blank {c s r} : isBlank c = true → Blanks s r → Blanks (c :: s) r
  | comment {body s r} : (∀ c ∈ body, c ≠ '\n' ∧ c ≠ '\r') → EndsLine s → Blanks s r →
      Blanks ('#' :: (body ++ s)) r

/-! ## Lists -/

section Lists

variable {α : Type} (item : Form α)

/-- Further items, each after a comma. -/
inductive More : Form (List α)
  | none {s} : More s [] s
  | item {s t u v a as r} : Blanks s (',' :: t) → Blanks t u → item u a v → More v as r →
      More s (a :: as) r

/-- Items with commas between them, none at all included. -/
inductive Items : Form (List α)
  | none {s} : Items s [] s
  | some {s t a as r} : item s a t → More item t as r → Items s (a :: as) r

/-- What stands between an opening character that was read and the closing one. -/
inductive Enclosed (close : Char) : Form (List α)
  | mk {s t u as r} : Blanks s t → Items item t as u → Blanks u (close :: r) →
      Enclosed close s as r

end Lists

/-! ## Strings -/

/-- A letter after a backslash, and the character it stands for. -/
inductive ShortEscape : Char → Char → Prop
  | quote : ShortEscape '"' '"'
  | backslash : ShortEscape '\\' '\\'
  | slash : ShortEscape '/' '/'
  | backspace : ShortEscape 'b' '\x08'
  | formFeed : ShortEscape 'f' '\x0c'
  | lineFeed : ShortEscape 'n' '\n'
  | carriageReturn : ShortEscape 'r' '\r'
  | tab : ShortEscape 't' '\t'

/-- Four hexadecimal digits. -/
inductive HexFour : Form Nat
  | mk {a b c d : Char} {w x y z : Nat} {r} : hexValue? a = some w → hexValue? b = some x →
      hexValue? c = some y → hexValue? d = some z →
      HexFour (a :: b :: c :: d :: r) (((w * 16 + x) * 16 + y) * 16 + z) r

/-- The characters up to the closing quote. Half of a surrogate pair only stands before or
after the other half. -/
inductive Body : Form (List Char)
  | close {r} : Body ('"' :: r) [] r
  | plain {c s cs r} : c ≠ '"' → c ≠ '\\' → Body s cs r → Body (c :: s) (c :: cs) r
  | short {letter c s cs r} : ShortEscape letter c → Body s cs r →
      Body ('\\' :: letter :: s) (c :: cs) r
  | code {s t n cs r} : HexFour s n t → ¬ (0xD800 ≤ n ∧ n < 0xE000) → Body t cs r →
      Body ('\\' :: 'u' :: s) (Char.ofNat n :: cs) r
  | pair {s t u high low cs r} : HexFour s high ('\\' :: 'u' :: t) → HexFour t low u →
      0xD800 ≤ high ∧ high < 0xDC00 → 0xDC00 ≤ low ∧ low < 0xE000 → Body u cs r →
      Body ('\\' :: 'u' :: s)
        (Char.ofNat (0x10000 + (high - 0xD800) * 0x400 + (low - 0xDC00)) :: cs) r

/-- A string in quotes. -/
inductive Quoted : Form String
  | mk {s cs r} : Body s cs r → Quoted ('"' :: s) (String.ofList cs) r

/-! ## Numbers -/

/-- One digit or more. -/
def Digits (ds : List Char) : Prop := ds ≠ [] ∧ ∀ c ∈ ds, c.isDigit = true

/-- A minus sign, if there is one. -/
inductive Minus : List Char → Bool → Prop
  | absent : Minus [] false
  | present : Minus ['-'] true

/-- A point with digits after it, if there is one. -/
inductive Fraction : List Char → List Char → Prop
  | absent : Fraction [] []
  | present {ds} : Digits ds → Fraction ('.' :: ds) ds

/-- The sign of an exponent, if there is one. -/
inductive Sign : List Char → Bool → Prop
  | absent : Sign [] false
  | plus : Sign ['+'] false
  | minus : Sign ['-'] true

/-- A whole number with a sign. -/
def signed (neg : Bool) (n : Nat) : Int := if neg then -(n : Int) else n

/-- A power of ten, if there is one. -/
inductive Exponent : List Char → Int → Prop
  | absent : Exponent [] 0
  | present {mark sign neg ds} : mark = 'e' ∨ mark = 'E' → Sign sign neg → Digits ds →
      Exponent (mark :: (sign ++ ds)) (signed neg (digitsValue ds))

/-- A number. Without a fraction and an exponent it is a whole number of 64 bits, exact; with
one of them it is the nearest float, which is finite. -/
inductive Numeral : Form Number
  | whole {minus neg digits n r} : Minus minus neg → Digits digits →
      Number.int? (signed neg (digitsValue digits)) = some n →
      Numeral (minus ++ digits ++ r) n r
  | float {minus neg digits fraction decimals exponent power x r} : Minus minus neg →
      Digits digits → Fraction fraction decimals → Exponent exponent power →
      fraction ≠ [] ∨ exponent ≠ [] →
      Binary64.ofDecimal neg (digitsValue (digits ++ decimals)) (power - decimals.length)
        = some x →
      Numeral (minus ++ digits ++ fraction ++ exponent ++ r) (.float x) r

/-! ## Literals -/

/-- A literal that is no array and no object. -/
inductive Scalar : Form Value
  | null {r} : Scalar ("null".toList ++ r) .null r
  | true {r} : Scalar ("true".toList ++ r) (.bool true) r
  | false {r} : Scalar ("false".toList ++ r) (.bool false) r
  | string {s t r} : Quoted s t r → Scalar s (.str t) r
  | number {s n r} : Numeral s n r → Scalar s (.num n) r

/-- A name and its value. -/
inductive Member (value : Form Value) : Form (String × Value)
  | mk {s t u v key x r} : Quoted s key t → Blanks t (':' :: u) → Blanks u v → value v x r →
      Member value s (key, x) r

/-- An array or an object. Of two members with one name the later counts. -/
inductive Compound (value : Form Value) : Form Value
  | array {s vs r} : Enclosed value ']' s vs r → Compound value ('[' :: s) (.arr vs) r
  | object {s ms r} : Enclosed (Member value) '\x7d' s ms r →
      Compound value ('\x7b' :: s) (.obj (Value.sortMembers ms)) r

/-- A literal whose arrays and objects nest at most so deep. -/
def Literal : Nat → Form Value
  | 0, s, v, r => Scalar s v r
  | n + 1, s, v, r => Scalar s v r ∨ Compound (Literal n) s v r

/-! ## Conditions and groups -/

/-- A name: a letter or an underscore, then letters, digits and underscores. -/
inductive Name : List Char → Prop
  | mk {c rest} : isNameStart c = true → (∀ x ∈ rest, isNameChar x = true) → Name (c :: rest)

/-- A name with literals in parentheses. No condition has a reserved name. -/
inductive Call : Form Condition
  | mk {name s t k r} : Name name → name = k.rule.toList → Blanks s ('(' :: t) →
      Enclosed (Literal maxNesting) ')' t k.params r → Call (name ++ s) k r

/-- `all()` or `any()`. -/
inductive EmptyGroup : Form (Criteria Condition)
  | all {s t r} : Blanks s ('(' :: t) → Blanks t (')' :: r) →
      EmptyGroup ("all".toList ++ s) (.all []) r
  | any {s t r} : Blanks s ('(' :: t) → Blanks t (')' :: r) →
      EmptyGroup ("any".toList ++ s) (.any []) r

/-- No character of a name stands at the start. -/
def NoNameChar (s : List Char) : Prop := ∀ c t, s = c :: t → isNameChar c = false

/-- An operator, in lower or upper case, after blanks. -/
inductive Operator (lower upper : String) : List Char → List Char → Prop
  | lower {s r} : Blanks s (lower.toList ++ r) → NoNameChar r → Operator lower upper s r
  | upper {s r} : Blanks s (upper.toList ++ r) → NoNameChar r → Operator lower upper s r

section Chains

variable {α : Type} (operator : List Char → List Char → Prop) (part : Form α)

/-- Further parts, each after an operator. -/
inductive Operands : Form (List α)
  | none {s} : Operands s [] s
  | part {s t u a as r} : operator s t → part t a u → Operands u as r → Operands s (a :: as) r

/-- Parts joined by an operator: one is itself, and several are a group. -/
inductive Chain (group : List α → α) : Form α
  | one {s a r} : part s a r → Chain group s a r
  | several {s t a b as r} : part s a t → Operands operator part t (b :: as) r →
      Chain group s (group (a :: b :: as)) r

end Chains

/-- A part of a chain of `and`; `inner` is what may stand in parentheses. -/
inductive Primary (inner : Form (Criteria Condition)) : Form (Criteria Condition)
  | group {s t u c r} : Blanks s ('(' :: t) → inner t c u → Blanks u (')' :: r) →
      Primary inner s c r
  | empty {s t c r} : Blanks s t → EmptyGroup t c r → Primary inner s c r
  | call {s t k r} : Blanks s t → Call t k r → Primary inner s (.leaf k) r

/-- Chains of `or` over chains of `and`. -/
def Disjunction (inner : Form (Criteria Condition)) : Form (Criteria Condition) :=
  Chain (Operator "or" "OR") (Chain (Operator "and" "AND") (Primary inner) .all) .any

/-- An expression whose groups in parentheses nest at most so deep. -/
def Expr : Nat → Form (Criteria Condition)
  | 0 => Disjunction fun _ _ _ => False
  | n + 1 => Disjunction (Expr n)

/-- A whole text spells criteria. -/
def Spells (text : List Char) (c : Criteria Condition) : Prop :=
  ∃ r, Expr maxNesting text c r ∧ Blanks r []

end Permit.Expression.Grammar
