-- Text settings from variables. The value of a variable is first taken for a flag, a whole number
-- or a float, and printed again where a text is wanted: so the text is the value itself only if
-- what the value spells is printed that way.
import Permit.Proofs.Grammar.Basic
import Permit.Proofs.Json.Scalars
import Permit.Proofs.Letters
import Permit.Proofs.Settings.Adding

namespace Permit

open Extended (wholeOfText? digitsValue)

/-! ## Whole numbers in their usual spelling -/

/-- The usual spelling of a whole number: no plus, no zeros in front of other digits, and no minus
in front of zero. -/
def UsualWhole (s : List Char) : Prop :=
  s = ['0'] ∨ ∃ c rest, (s = c :: rest ∨ s = '-' :: c :: rest) ∧ c.isDigit ∧ c ≠ '0'

theorem toNat_of_isDigit {c : Char} (h : c.isDigit) : 48 ≤ c.toNat ∧ c.toNat ≤ 57 := by
  simp only [Char.isDigit, Bool.and_eq_true, decide_eq_true_eq] at h
  exact h

theorem isUpper_of_isDigit {c : Char} (h : c.isDigit) : c.isUpper = false := by
  have range := toNat_of_isDigit h
  simp only [Char.isUpper, decide_eq_false_iff_not]
  rintro ⟨least, -⟩
  change 65 ≤ c.toNat at least
  omega

theorem toDigits_digit {c : Char} (h : c.isDigit) :
    c.toNat - '0'.toNat < 10 ∧ Nat.toDigits 10 (c.toNat - '0'.toNat) = [c] := by
  have range := toNat_of_isDigit h
  change c.toNat - 48 < 10 ∧ Nat.toDigits 10 (c.toNat - 48) = [c]
  have small : c.toNat - 48 < 10 := by omega
  refine ⟨small, ?_⟩
  rw [Nat.toDigits_of_lt_base small, List.cons.injEq, ← Char.toNat_inj,
    Nat.toNat_digitChar_of_lt_ten small]
  exact ⟨by omega, rfl⟩

/-- Digits after those of a positive number are its digits and they. -/
theorem natDigits_ofDigitChars {ds : List Char} (digits : ∀ d ∈ ds, d.isDigit) {n : Nat}
    (positive : 0 < n) : natDigits (Nat.ofDigitChars 10 ds n) = natDigits n ++ ds := by
  induction ds generalizing n with
  | nil => simp
  | cons d rest ih =>
    obtain ⟨small, one⟩ := toDigits_digit (digits d List.mem_cons_self)
    rw [Nat.ofDigitChars_cons, ih (fun e he => digits e (List.mem_cons_of_mem _ he)) (by omega)]
    rw [natDigits, ← Nat.toDigits_append_toDigits (by decide) positive small, one]
    simp [natDigits]

/-- Digits are those of their number if they do not start with a zero or are nothing else. -/
theorem natDigits_digitsValue_iff {c : Char} {rest : List Char}
    (digits : ∀ d ∈ c :: rest, d.isDigit) :
    natDigits (digitsValue (c :: rest)) = c :: rest ↔ c :: rest = ['0'] ∨ c ≠ '0' := by
  constructor
  · intro same
    rcases Json.natDigits_cases (digitsValue (c :: rest)) with zero | ⟨d, ds, eq, positive⟩
    · exact .inl (same ▸ zero)
    · rw [same] at eq
      cases eq
      refine .inr ?_
      rintro rfl
      exact positive rfl
  · rintro (zero | first)
    · rw [zero]
      decide
    · obtain ⟨-, one⟩ := toDigits_digit (digits c List.mem_cons_self)
      have positive : 0 < c.toNat - '0'.toNat := by
        have least := (toNat_of_isDigit (digits c List.mem_cons_self)).1
        have other : c.toNat ≠ 48 := fun same => first (Char.toNat_inj.1 same)
        change 0 < c.toNat - 48
        omega
      have value : digitsValue (c :: rest) = Nat.ofDigitChars 10 rest (c.toNat - '0'.toNat) := by
        simp [digitsValue, Nat.ofDigitChars_eq_foldl]
      rw [value, natDigits_ofDigitChars (fun d hd => digits d (List.mem_cons_of_mem _ hd)) positive,
        natDigits, one]
      rfl

theorem sign_eq {s ds : List Char} {neg : Bool} (h : Extended.sign s = (neg, ds)) :
    neg = true ∧ s = '-' :: ds ∨ neg = false ∧ (s = '+' :: ds ∨ s = ds) := by
  unfold Extended.sign at h
  split at h <;> cases h
  · exact .inl ⟨rfl, rfl⟩
  · exact .inr ⟨rfl, .inl rfl⟩
  · exact .inr ⟨rfl, .inr rfl⟩

theorem sign_append {sign ds : List Char} {neg : Bool}
    (signs : Expression.Grammar.Sign sign neg) (digits : Expression.Grammar.Digits ds) :
    Extended.sign (sign ++ ds) = (neg, ds) := by
  cases signs with
  | absent =>
    obtain ⟨c, rest, rfl⟩ := List.exists_cons_of_ne_nil digits.1
    have digit := digits.2 c List.mem_cons_self
    rw [List.nil_append]
    unfold Extended.sign
    split
    · next eq =>
      cases eq
      cases digit
    · next eq =>
      cases eq
      cases digit
    · rfl
  | plus => rfl
  | minus => rfl

/-- The text of a whole number has digits and perhaps a sign. -/
theorem digits_of_wholeOfText {s : List Char} {i : Int} (h : wholeOfText? s = some i) :
    ∃ c rest, (∀ d ∈ c :: rest, d.isDigit) ∧
      (s = '-' :: c :: rest ∧ i = -digitsValue (c :: rest) ∨
        (s = '+' :: c :: rest ∨ s = c :: rest) ∧ i = digitsValue (c :: rest)) := by
  obtain ⟨⟨neg, ds⟩, eq⟩ : ∃ r, Extended.sign s = r := ⟨_, rfl⟩
  simp only [wholeOfText?, eq] at h
  split at h
  · cases h
  · next all =>
    cases ds with
    | nil => simp at all
    | cons c rest =>
      refine ⟨c, rest, by simpa using all, ?_⟩
      rcases sign_eq eq with ⟨rfl, form⟩ | ⟨rfl, form⟩
      · exact .inl ⟨form, (Option.some.inj h).symm⟩
      · exact .inr ⟨form, (Option.some.inj h).symm⟩

theorem intDigits_natCast (n : Nat) : intDigits n = natDigits n := by
  simp [intDigits]

theorem intDigits_neg {n : Nat} (h : n ≠ 0) : intDigits (-n) = '-' :: natDigits n := by
  simp [intDigits, Nat.pos_of_ne_zero h]

/-- Digits after a minus are in their usual spelling if they do not start with a zero. -/
theorem usualWhole_minus {c : Char} {rest : List Char} (digit : c.isDigit) :
    UsualWhole ('-' :: c :: rest) ↔ c ≠ '0' := by
  constructor
  · rintro (eq | ⟨d, ds, eq | eq, isDigit, first⟩)
    · cases eq
    · cases eq
      exact absurd isDigit (by decide)
    · cases eq
      exact first
  · exact fun first => .inr ⟨c, rest, .inr rfl, digit, first⟩

/-- A whole number is printed as it is spelled exactly in its usual spelling. -/
theorem intDigits_wholeOfText_iff {s : List Char} {i : Int} (h : wholeOfText? s = some i) :
    intDigits i = s ↔ UsualWhole s := by
  obtain ⟨c, rest, digits, form⟩ := digits_of_wholeOfText h
  have printed := natDigits_digitsValue_iff digits
  have digit := digits c List.mem_cons_self
  rcases form with ⟨rfl, rfl⟩ | ⟨rfl | rfl, rfl⟩
  · rw [usualWhole_minus digit]
    by_cases zero : digitsValue (c :: rest) = 0
    · rw [zero] at printed ⊢
      have none : ¬ intDigits (-((0 : Nat) : Int)) = '-' :: c :: rest := fun eq => by cases eq
      refine iff_of_false none fun first => ?_
      cases printed.2 (.inr first)
      exact first rfl
    · rw [intDigits_neg zero, List.cons.injEq, printed]
      refine ⟨?_, fun first => ⟨rfl, .inr first⟩⟩
      rintro ⟨-, eq | first⟩
      · cases eq
        exact absurd rfl zero
      · exact first
  · refine iff_of_false (fun eq => ?_) ?_
    · rw [intDigits_natCast] at eq
      have inside : '+' ∈ natDigits (digitsValue (c :: rest)) := eq ▸ List.mem_cons_self
      exact absurd (Nat.isDigit_of_mem_toDigits (by decide) (by decide) inside) (by decide)
    · rintro (eq | ⟨d, ds, eq | eq, isDigit, -⟩)
      · cases eq
      · cases eq
        exact absurd isDigit (by decide)
      · cases eq
  · rw [intDigits_natCast, printed, UsualWhole]
    refine or_congr_right ⟨fun first => ⟨c, rest, .inl rfl, digit, first⟩, ?_⟩
    rintro ⟨d, ds, eq | eq, -, first⟩
    · cases eq
      exact first
    · cases eq
      exact absurd digit (by decide)

/-! ## What a variable spells -/

/-- The word for a flag. -/
def flagWord (b : Bool) : String := if b then "true" else "false"

/-- No flag and no whole number of 64 bits. -/
structure NoWhole (value : String) : Prop where
  flag : ∀ b, value.toLower ≠ flagWord b
  whole : ∀ i, wholeOfText? value.toList = some i → Toml.isWord i = false

theorem NoWhole.not_isWord {value : String} (h : NoWhole value) {i : Int}
    (spelled : wholeOfText? value.toList = some i) : ¬ Toml.isWord i = true := by
  rw [h.whole i spelled]
  exact Bool.false_ne_true

/-- The text that a text setting has from a variable of that value: the first that the value
spells, a flag in any case, a whole number of 64 bits or a float, is printed, and any other value
is kept. -/
inductive Becomes (value : String) : String → Prop where
  | flag {b : Bool} : value.toLower = flagWord b → Becomes value (flagWord b)
  | whole {i : Int} : (∀ b, value.toLower ≠ flagWord b) → wholeOfText? value.toList = some i →
      Toml.isWord i = true → Becomes value (String.ofList (intDigits i))
  | float {x : Extended} : NoWhole value → Extended.ofText? value.toList = some x →
      Becomes value x.text
  | text : NoWhole value → Extended.ofText? value.toList = none → Becomes value value

theorem ne_flagWord {word : String} (yes : word = "true" → False) (no : word = "false" → False) :
    ∀ b, word ≠ flagWord b
  | true => yes
  | false => no

theorem becomes_ofVariable (value : String) :
    ∃ t, (Settings.ofVariable value).toText? = some t ∧ Becomes value t := by
  have noWord (h : (wholeOfText? value.toList).filter Toml.isWord = none) :
      ∀ i, wholeOfText? value.toList = some i → Toml.isWord i = false := by
    simpa [Option.filter_eq_none_iff] using h
  unfold Settings.ofVariable
  dsimp only
  split
  · next yes => exact ⟨_, rfl, .flag yes⟩
  · next no => exact ⟨_, rfl, .flag no⟩
  · next spelled yes no =>
    obtain ⟨whole, word⟩ := Option.filter_eq_some_iff.1 spelled
    exact ⟨_, rfl, .whole (ne_flagWord yes no) whole word⟩
  · next none spelled yes no => exact ⟨_, rfl, .float ⟨ne_flagWord yes no, noWord none⟩ spelled⟩
  · next none spelled yes no => exact ⟨_, rfl, .text ⟨ne_flagWord yes no, noWord none⟩ spelled⟩

/-! ## What is kept -/

/-- A value that is kept as a text: a flag in lower case, a whole number of 64 bits in its usual
spelling, a float in the digits that are printed for it, and all that is none of these. -/
structure Kept (value : String) : Prop where
  flag : ∀ b, value.toLower = flagWord b → value = flagWord b
  whole : ∀ i, wholeOfText? value.toList = some i → Toml.isWord i = true → UsualWhole value.toList
  float : NoWhole value → ∀ x, Extended.ofText? value.toList = some x → value = x.text

/-- A flag starts with a letter, and a whole number with a sign or a digit. -/
theorem wholeOfText?_flag {value : String} {b : Bool} (named : value.toLower = flagWord b) :
    wholeOfText? value.toList = none := by
  cases spelled : wholeOfText? value.toList with
  | none => rfl
  | some i =>
    have letters := congrArg String.toList named
    rw [String.toLower, String.toList_map] at letters
    obtain ⟨c, rest, digits, form⟩ := digits_of_wholeOfText spelled
    have digit := digits c List.mem_cons_self
    have same : c.toLower = c := Text.toLower_of_not_isUpper (isUpper_of_isDigit digit)
    have first : ∀ d ∈ (flagWord b).toList.head?, d ≠ '-' ∧ d ≠ '+' ∧ d.isDigit = false := by
      cases b <;> simp [flagWord]
    rw [← letters] at first
    rcases form with ⟨eq, -⟩ | ⟨eq | eq, -⟩ <;> rw [eq] at first
    · exact absurd rfl (first '-' rfl).1
    · exact absurd rfl (first '+' rfl).2.1
    · have notDigit := (first c.toLower rfl).2.2
      rw [same, digit] at notDigit
      cases notDigit

theorem Becomes.eq_iff {value t : String} (h : Becomes value t) : t = value ↔ Kept value := by
  constructor
  · intro same
    cases h with
    | @flag b named =>
      refine ⟨fun b' named' => ?_, fun i spelled => ?_,
        fun noWhole => absurd named (noWhole.flag _)⟩
      · rw [← same, ← named, named']
      · rw [wholeOfText?_flag named] at spelled
        cases spelled
    | @whole i noFlag spelled word =>
      refine ⟨fun b named => absurd named (noFlag b), fun j spelled' _ => ?_,
        fun noWhole => absurd word (noWhole.not_isWord spelled)⟩
      rw [← intDigits_wholeOfText_iff spelled, ← same, String.toList_ofList]
    | @float x noWhole spelled =>
      refine ⟨fun b named => absurd named (noWhole.flag b),
        fun i whole word => absurd word (noWhole.not_isWord whole), fun _ y spelled' => ?_⟩
      rw [spelled] at spelled'
      cases spelled'
      exact same.symm
    | text noWhole spelled =>
      refine ⟨fun b named => absurd named (noWhole.flag b),
        fun i whole word => absurd word (noWhole.not_isWord whole), fun _ y spelled' => ?_⟩
      rw [spelled] at spelled'
      cases spelled'
  · intro kept
    cases h with
    | flag named => exact (kept.flag _ named).symm
    | whole _ spelled word =>
      rw [(intDigits_wholeOfText_iff spelled).2 (kept.whole _ spelled word), String.ofList_toList]
    | float noWhole spelled => exact (kept.float noWhole _ spelled).symm
    | text => rfl

/-! ## Text settings -/

/-- The fields that are texts. -/
inductive TextField where
  | host
  | level
  | pluginId
  | resourceType
deriving DecidableEq, Repr

namespace TextField

/-- The field among all fields. -/
def field : TextField → Field
  | host => .host
  | level => .level
  | pluginId => .pluginId
  | resourceType => .resourceType

/-- The text that the settings have for the field. -/
def of : TextField → Settings → String
  | host, s => s.server.host
  | level, s => s.log.level
  | pluginId, s => s.owner.pluginId
  | resourceType, s => s.owner.resourceType

/-- A text takes what any variable spells. -/
theorem accept?_ofVariable (f : TextField) (value : String) :
    ∃ a : f.field.Value, f.field.accept? (Settings.ofVariable value) = some a ∧
      ∀ s, f.field.of s = a → Becomes value (f.of s) := by
  obtain ⟨t, printed, becomes⟩ := becomes_ofVariable value
  cases f <;> exact ⟨t, printed, fun s same => by rw [← same] at becomes; exact becomes⟩

/-- A text in quotes is taken as it is. -/
theorem own?_string (f : TextField) (value : String) :
    ∃ a : f.field.Value, f.field.own? (.string value) = some a ∧
      ∀ s, f.field.of s = a → f.of s = value := by
  cases f <;> exact ⟨value, rfl, fun _ same => same⟩

end TextField

/-- A text setting from a variable of any value: what loads without the variable loads with it,
the text is what the value becomes, and this is the value itself exactly if it is kept. From a
TOML text in quotes any value is taken as it is. -/
theorem a_text_setting_is_what_its_variable_becomes {text : String}
    {before after : List (String × String)} {settings : Settings} (f : TextField) (value : String)
    (valid : Settings.ofToml text (before ++ after) = .ok settings)
    (away : ∀ m ∈ Settings.ofEnvironment after, ¬ f.field.On (.ofText m.1)) :
    (∃ s, Settings.ofToml text (before ++ (f.field.variableName, value) :: after) = .ok s ∧
      Becomes value (f.of s) ∧ (f.of s = value ↔ Kept value)) ∧
    ∀ text' members env, Fitting text' members env →
      f.field.given? members = some (.string value) →
      env.lookup f.field.variableName = none →
      ∃ s, Settings.ofToml text' env = .ok s ∧ f.of s = value := by
  constructor
  · obtain ⟨a, accepted, becomes⟩ := f.accept?_ofVariable value
    obtain ⟨s, loads, same⟩ := Field.ofToml_variable valid away accepted
    exact ⟨s, loads, becomes s same, (becomes s same).eq_iff⟩
  · intro text' members env fits entry unset
    obtain ⟨a, own, same⟩ := f.own?_string value
    obtain ⟨s, loads, -⟩ := fits.ofToml_eq
    exact ⟨s, loads, same s (fits.of_eq_own loads unset entry own)⟩

/-- Zeros in front of a number get lost on the way through a variable, and not in quotes. -/
theorem zeros_stay_in_quotes_only :
    (∃ s, Settings.ofToml "" [("RULEWARD_INTEGRATION__RESOURCE_TYPE", "007")] = .ok s ∧
      s.owner.resourceType ≠ "007") ∧
    ∃ s, Settings.ofToml "integration.resource_type = \"007\"" [] = .ok s ∧
      s.owner.resourceType = "007" := by
  have valid : Settings.ofToml "" ([] ++ []) = .ok Settings.builtIn := rfl
  have notKept : ¬ Kept "007" := by
    intro kept
    rcases kept.whole 7 (by decide) (by decide) with eq | ⟨c, rest, eq | eq, -, first⟩
    · exact absurd eq (by decide)
    · cases eq
      exact first rfl
    · cases eq
  have fits : Fitting "integration.resource_type = \"007\""
      [("integration", .table .dotted [("resource_type", .string "007")])] [] := {
    reads := rfl
    table := by
      intro f v h
      cases f <;> cases h <;> exact ⟨_, _, rfl⟩
    accepted := by
      intro f v h
      cases f <;> cases h
      rfl
    once := List.nodup_nil
    suits := by simp
    aside := by
      intro f m hm other
      cases List.mem_singleton.1 hm
      exact Field.not_on_section (g := .pluginId) other }
  obtain ⟨⟨s, loads, -, same⟩, quoted⟩ :=
    a_text_setting_is_what_its_variable_becomes .resourceType "007" valid
      (by simp [Settings.ofEnvironment])
  exact ⟨⟨s, loads, fun eq => notKept (same.1 eq)⟩, quoted _ _ _ fits rfl rfl⟩

/-- A resource type of digits is another one when it is read from a variable. -/
theorem a_variable_of_digits_is_printed_as_a_number :
    ∃ s, Settings.ofToml "" [("RULEWARD_INTEGRATION__RESOURCE_TYPE", "007")] = .ok s ∧
      s.owner.resourceType = "7" ∧ "7" ≠ "007" := by
  have valid : Settings.ofToml "" ([] ++ []) = .ok Settings.builtIn := rfl
  have number : Settings.ofVariable "007" = .integer 7 := by
    have whole : (wholeOfText? "007".toList).filter Toml.isWord = some 7 := by decide
    have lower : "007".toLower = "007" := Text.toLower_of_forall (by simp)
    unfold Settings.ofVariable
    rw [whole, lower]
    rfl
  obtain ⟨s, loads, same⟩ := Field.ofToml_variable (f := .resourceType) (a := "7") valid
    (by simp [Settings.ofEnvironment]) (by rw [number]; rfl)
  exact ⟨s, loads, same, by decide⟩

end Permit
