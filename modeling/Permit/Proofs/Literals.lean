-- JSON texts as literals of the text form. An array or an object that the reader of JSON takes is
-- one of the grammar, item by item, so a whole text of JSON can stand between the parentheses of a
-- condition and means there what it means alone.
import Mathlib
import Permit.Proofs.Grammar.Expressions
import Permit.Proofs.Json.Pieces

namespace Permit.Json

open Text Expression.Grammar

/-! ## Lists -/

/-- What stands before an item: blanks, and a comma unless it is the first. -/
inductive Before : Bool → List Char → List Char → Prop
  | first {s t} : Blanks s t → Before true s t
  | later {s t u} : Blanks s (',' :: t) → Blanks t u → Before false s u

theorem Before.trans {first : Bool} {s t u : List Char} (h : Before first s t)
    (more : Blanks t u) : Before first s u := by
  cases h with
  | first before => exact .first (before.trans more)
  | later comma before => exact .later comma (before.trans more)

/-- The items of a list up to its closing character, from the first on or after some. -/
inductive Listed {α : Type} (item : Form α) (close : Char) : Bool → Form (List α)
  | close {first s r} : Blanks s (close :: r) → Listed item close first s [] r
  | item {first s t u a as r} : Before first s t → item t a u → Listed item close false u as r →
      Listed item close first s (a :: as) r

section Lists

variable {α : Type} {item : Form α} {close : Char}

theorem Listed.more {s r : List Char} {as : List α} {first : Bool}
    (h : Listed item close first s as r) (later : first = false) :
    ∃ t, More item s as t ∧ Blanks t (close :: r) := by
  induction h with
  | close ends => exact ⟨_, .none, ends⟩
  | item before isItem _ ih =>
    subst later
    obtain ⟨t, more, ends⟩ := ih rfl
    cases before with
    | later comma blanks => exact ⟨t, .item comma blanks isItem more, ends⟩

theorem Listed.enclosed {s r : List Char} {as : List α} (h : Listed item close true s as r) :
    Enclosed item close s as r := by
  cases h with
  | close ends => exact .mk ends .none .done
  | item before isItem others =>
    obtain ⟨t, more, ends⟩ := others.more rfl
    cases before with
    | first blanks => exact .mk blanks (.some isItem more) ends

end Lists

/-! ## Between items -/

/-- Where the reader of JSON goes on for an item: past blanks, and past a comma unless the item is
the first. -/
inductive Due : Bool → List Glyph → List Glyph → Prop
  | first {s} : Due true s (skipSpace s)
  | later {s t} : skipSpace s = .char ',' :: t → Due false s (skipSpace t)

theorem due_of_startOfItem {first : Bool} {s t : List Glyph} (h : startOfItem first s = .ok t) :
    Due first s t := by
  unfold startOfItem at h
  split at h
  · cases h
  · cases h
  · next here =>
    split at h
    · next isFirst =>
      cases h
      subst isFirst
      exact here ▸ .first
    · next other =>
      rw [Bool.not_eq_true] at other
      subst other
      split at h
      · next comma =>
        subst comma
        split at h
        · cases h
        · cases h
        · cases h
          exact .later here
      · cases h

/-- A list that ends without a failure is closed. -/
theorem closed_of_startOfItem {first : Bool} {s : List Glyph} {ending : Ending}
    (h : startOfItem first s = .error ending) (whole : ending.failure? = none) :
    ∃ rest, skipSpace s = .char ']' :: rest ∧ ending = .closed rest := by
  unfold startOfItem at h
  split at h
  · cases h
    cases whole
  · next closed =>
    cases h
    exact ⟨_, closed, rfl⟩
  · split at h
    · cases h
    · split at h
      · split at h
        · cases h
          cases whole
        · cases h
          cases whole
        · cases h
      · cases h
        cases whole

theorem due_of_startOfMember {first : Bool} {s t : List Glyph}
    (h : startOfMember first s = .ok t) : Due first s (.char '"' :: t) := by
  unfold startOfMember at h
  split at h
  · cases h
  · cases h
  · next here =>
    dsimp only at h
    split at h
    · next isFirst =>
      subst isFirst
      split at h
      · cases h
      · next quote =>
        cases h
        exact (here.trans quote) ▸ .first
      · cases h
      · cases h
    · next other =>
      rw [Bool.not_eq_true] at other
      subst other
      split at h
      · next comma =>
        subst comma
        split at h
        · cases h
        · next quote =>
          cases h
          exact quote ▸ .later here
        · cases h
        · cases h
      · cases h

theorem closed_of_startOfMember {first : Bool} {s : List Glyph} {ending : Ending}
    (h : startOfMember first s = .error ending) (whole : ending.failure? = none) :
    ∃ rest, skipSpace s = .char '\x7d' :: rest ∧ ending = .closed rest := by
  unfold startOfMember at h
  split at h
  · cases h
    cases whole
  · next closed =>
    cases h
    exact ⟨_, closed, rfl⟩
  · dsimp only at h
    split at h
    · split at h
      · cases h
        cases whole
      · cases h
      · cases h
        cases whole
      · cases h
        cases whole
    · split at h
      · split at h
        · cases h
          cases whole
        · cases h
        · cases h
          cases whole
        · cases h
          cases whole
      · cases h
        cases whole

section Between

variable {limit level : Nat} (past : List Char) {s : List Char}

theorem due_chars {first : Bool} {t : List Glyph} (h : Due first (s.map .char) t)
    (modest : Modest limit level s) : ∃ r, t = r.map .char ∧ r.length ≤ s.length ∧
      Modest limit level r ∧ Before first (s ++ past) (r ++ past) := by
  cases h with
  | first =>
    obtain ⟨r, skipped, shorter, modest, blanks⟩ := skipSpace_chars past modest
    exact ⟨r, skipped, shorter, modest, .first blanks⟩
  | later comma =>
    obtain ⟨u, rfl, shorter, modest, blanks⟩ := skipSpace_cons past modest comma
    obtain ⟨r, skipped, least, modest, more⟩ := skipSpace_chars past (modest.tail rfl)
    exact ⟨r, skipped, by omega, modest, .later blanks more⟩

theorem closed_chars {close : Char} {rest : List Glyph}
    (h : skipSpace (s.map .char) = .char close :: rest) (isClose : close = ']' ∨ close = '\x7d')
    (modest : Modest limit (level + 1) s) : ∃ r, rest = r.map .char ∧ r.length < s.length ∧
      Modest limit level r ∧ Blanks (s ++ past) (close :: (r ++ past)) := by
  obtain ⟨r, rfl, shorter, modest, blanks⟩ := skipSpace_cons past modest h
  exact ⟨r, rfl, shorter, modest.closing isClose, blanks⟩

end Between

/-! ## Arrays and objects -/

/-- What the reader takes is a form of the canonical value, in texts within the bounds. -/
def Borrows (limit level : Nat) (past : List Char) (read : List Glyph → Reading)
    (form : Form Value) : Prop :=
  ∀ s d rest v, read (s.map .char) = (d, rest) → d.settle = .ok v → Modest limit level s →
    Takes limit level past form s v.normalize rest

section Compounds

variable {limit level : Nat} {past : List Char} {read : List Glyph → Reading} {form : Form Value}
  (borrows : Borrows limit (level + 1) past read form)
include borrows

/-- The items are read one by one up to the bracket, and there is no other way to end that leaves
a value. -/
theorem readItems_chars (fuel i : Nat) {s : List Char} {ds : List Draft} {ending : Ending}
    {vs : List Value} (h : readItems (fun _ => some read) fuel i (s.map .char) = (ds, ending))
    (whole : ending.failure? = none) (settled : Draft.settleItems ds = .ok vs)
    (enough : s.length < fuel) (modest : Modest limit (level + 1) s) :
    ∃ r, ending = .closed (r.map .char) ∧ r.length < s.length ∧ Modest limit level r ∧
      Listed form ']' (i == 0) (s ++ past) (Value.normalizeItems vs) (r ++ past) := by
  induction fuel generalizing i s ds vs with
  | zero => cases enough
  | succ fuel ih =>
    rw [readItems] at h
    split at h
    · next none => cases none
    · next some =>
      cases some
      split at h
      · next ended =>
        cases h
        cases settled
        obtain ⟨_, bracket, rfl⟩ := closed_of_startOfItem ended whole
        obtain ⟨r, rfl, shorter, modest, blanks⟩ := closed_chars past bracket (.inl rfl) modest
        exact ⟨r, rfl, shorter, modest, .close blanks⟩
      · next start =>
        obtain ⟨t, rfl, shorter, modest, before⟩ :=
          due_chars past (due_of_startOfItem start) modest
        split at h
        · next d given =>
          cases h
          obtain ⟨v, ws, first, -, rfl⟩ := Draft.settleItems_cons settled
          obtain ⟨u, r, none, _⟩ := borrows _ _ _ _ given first modest
          cases none
        · next d rest given =>
          cases h
          obtain ⟨v, ws, first, later, rfl⟩ := Draft.settleItems_cons settled
          obtain ⟨u, r, some, less, modest, blanks, isItem⟩ := borrows _ _ _ _ given first modest
          cases some
          obtain ⟨q, closed, least, modest, others⟩ := ih (i + 1) rfl later (by omega) modest
          exact ⟨q, closed, by omega, modest, .item (before.trans blanks) isItem others⟩

theorem readArray_chars {s : List Char} {d : Draft} {rest : Option (List Glyph)} {v : Value}
    (h : readArray (fun _ => some read) (s.map .char) = (d, rest)) (settled : d.settle = .ok v)
    (modest : Modest limit (level + 1) s) : ∃ r, rest = some (r.map .char) ∧
      r.length < s.length ∧ Modest limit level r ∧
      Compound form ('[' :: (s ++ past)) v.normalize (r ++ past) := by
  unfold readArray at h
  rcases items : readItems (fun _ => some read) ((s.map Glyph.char).length + 1) 0 (s.map .char)
    with ⟨ds, ending⟩
  rw [items] at h
  cases h
  obtain ⟨vs, each, whole, rfl⟩ := Draft.settle_arr settled
  obtain ⟨r, rfl, shorter, modest, listed⟩ :=
    readItems_chars borrows _ _ items whole each (by simp) modest
  exact ⟨r, rfl, shorter, modest, .array listed.enclosed⟩

theorem readAfterColon_chars {s : List Char} {d : Draft} {rest : Option (List Glyph)} {v : Value}
    (h : readAfterColon read (s.map .char) = (d, rest)) (settled : d.settle = .ok v)
    (modest : Modest limit (level + 1) s) : ∃ t u r, rest = some (r.map .char) ∧
      r.length < s.length ∧ Modest limit (level + 1) r ∧ Blanks (s ++ past) (':' :: t) ∧
      Blanks t u ∧ form u v.normalize (r ++ past) := by
  unfold readAfterColon at h
  split at h
  · cases h
    cases settled
  · next colon =>
    obtain ⟨t, rfl, shorter, modest, blanks⟩ := skipSpace_cons past modest colon
    obtain ⟨u, r, some, less, modest, more, isValue⟩ :=
      borrows _ _ _ _ h settled (modest.tail rfl)
    exact ⟨_, u, r, some, by omega, modest, blanks, more, isValue⟩
  · cases h
    cases settled

/-- The members are read one by one up to the brace, and there is no other way to end that leaves
a value. -/
theorem readMembers_chars (fuel : Nat) (first : Bool) {s : List Char}
    {ds : List (String × Draft)} {ending : Ending} {ms : List (String × Value)}
    (h : readMembers (fun _ => read) fuel first (s.map .char) = (ds, ending))
    (whole : ending.failure? = none) (settled : Draft.settleMembers ds = .ok ms)
    (enough : s.length < fuel) (modest : Modest limit (level + 1) s) :
    ∃ r, ending = .closed (r.map .char) ∧ r.length < s.length ∧ Modest limit level r ∧
      Listed (Member form) '\x7d' first (s ++ past) (Value.normalizeMembers ms) (r ++ past) := by
  induction fuel generalizing first s ds ms with
  | zero => cases enough
  | succ fuel ih =>
    rw [readMembers] at h
    split at h
    · next ended =>
      cases h
      cases settled
      obtain ⟨_, brace, rfl⟩ := closed_of_startOfMember ended whole
      obtain ⟨r, rfl, shorter, modest, blanks⟩ := closed_chars past brace (.inr rfl) modest
      exact ⟨r, rfl, shorter, modest, .close blanks⟩
    · next start =>
      obtain ⟨t, name, shorter, modest, before⟩ :=
        due_chars past (due_of_startOfMember start) modest
      obtain ⟨c, t, rfl, quote, rfl⟩ := List.map_eq_cons_iff.1 name.symm
      cases quote
      split at h
      · cases h
        cases whole
      · next name _ scanned =>
        obtain ⟨k, rfl, quoted, modest⟩ := scanString_chars past scanned modest
        have key := quoted.length_lt
        simp only [List.length_cons, List.length_append] at key shorter
        split at h
        · next d given =>
          cases h
          obtain ⟨v, ws, first, -, rfl⟩ := Draft.settleMembers_cons settled
          obtain ⟨_, _, _, none, _⟩ := readAfterColon_chars borrows given first modest
          cases none
        · next d rest given =>
          cases h
          obtain ⟨v, ws, first, later, rfl⟩ := Draft.settleMembers_cons settled
          obtain ⟨u, w, r, some, less, modest, colon, blanks, isValue⟩ :=
            readAfterColon_chars borrows given first modest
          cases some
          obtain ⟨q, closed, least, modest, others⟩ := ih false rfl later (by omega) modest
          exact ⟨q, closed, by omega, modest,
            .item before (.mk quoted colon blanks isValue) others⟩

theorem readObject_chars {s : List Char} {d : Draft} {rest : Option (List Glyph)} {v : Value}
    (h : readObject (fun _ => read) (s.map .char) = (d, rest)) (settled : d.settle = .ok v)
    (modest : Modest limit (level + 1) s) : ∃ r, rest = some (r.map .char) ∧
      r.length < s.length ∧ Modest limit level r ∧
      Compound form ('\x7b' :: (s ++ past)) v.normalize (r ++ past) := by
  unfold readObject at h
  rcases members : readMembers (fun _ => read) ((s.map Glyph.char).length + 1) true (s.map .char)
    with ⟨ds, ending⟩
  rw [members] at h
  cases h
  obtain ⟨ms, each, whole, rfl⟩ := Draft.settle_obj settled
  obtain ⟨r, rfl, shorter, modest, listed⟩ :=
    readMembers_chars borrows _ _ members whole each (by simp) modest
  exact ⟨r, rfl, shorter, modest, .object listed.enclosed⟩

end Compounds

/-! ## Whole values -/

/-- What the reader can be at, if it takes a value: an array, an object or neither. -/
theorem readValue_cases {budget : Nat} {s : List Glyph} {d : Draft} {rest : Option (List Glyph)}
    {v : Value} (h : readValue budget .whole s = (d, rest)) (settled : d.settle = .ok v) :
    (∃ n u, n < budget ∧ skipSpace s = .char '[' :: u ∧
      readArray (fun _ => some (readValue n .whole)) u = (d, rest)) ∨
    (∃ n u, n < budget ∧ skipSpace s = .char '\x7b' :: u ∧
      readObject (fun _ => readValue n .whole) u = (d, rest)) ∨
    readScalar (skipSpace s) = (d, rest) := by
  unfold readValue at h
  dsimp only at h
  split at h
  · cases h
    cases settled
  · cases h
    cases settled
  · next outline _ => cases outline
  · next outline _ => cases outline
  · next outline _ => cases outline
  · next outline _ => cases outline
  · next outline _ => cases outline
  · next outline _ => cases outline
  · next outline _ => cases outline
  · next outline _ _ _ _ _ => cases outline
  · next n u opened _ _ _ _ => exact .inl ⟨n, u, Nat.lt_succ_self n, opened, h⟩
  · next n u opened _ _ => exact .inr (.inl ⟨n, u, Nat.lt_succ_self n, opened, h⟩)
  · exact .inr (.inr h)

theorem normalize_scalar {s r : List Char} {v : Value} (h : Scalar s v r) : v.normalize = v := by
  cases h <;> rfl

/-- Where one more is open, a compound of what the limit leaves room for is a literal. -/
theorem literal_of_compound {limit level : Nat} (room : level + 1 ≤ limit) {s r : List Char}
    {v : Value} (h : Compound (Literal (limit - (level + 1))) s v r) :
    Literal (limit - level) s v r := by
  have one : limit - level = limit - (level + 1) + 1 := by omega
  rw [one]
  exact .inr h

/-- Each value that is read is a literal, as deep as the limit leaves room for. -/
theorem borrows_readValue (limit : Nat) (past : List Char) (budget : Nat) :
    ∀ level, Borrows limit level past (readValue budget .whole) (Literal (limit - level)) := by
  induction budget using Nat.strongRecOn with
  | _ budget ih =>
    intro level s d rest v h settled modest
    obtain ⟨n, u, less, opened, read⟩ | ⟨n, u, less, opened, read⟩ | scalar :=
      readValue_cases h settled
    · obtain ⟨t, rfl, shorter, modest, blanks⟩ := skipSpace_cons past modest opened
      obtain ⟨room, modest⟩ := modest.opening (.inl rfl)
      obtain ⟨r, some, least, modest, array⟩ :=
        readArray_chars (ih n less (level + 1)) read settled modest
      exact ⟨_, r, some, by omega, modest, blanks, literal_of_compound room array⟩
    · obtain ⟨t, rfl, shorter, modest, blanks⟩ := skipSpace_cons past modest opened
      obtain ⟨room, modest⟩ := modest.opening (.inr rfl)
      obtain ⟨r, some, least, modest, object⟩ :=
        readObject_chars (ih n less (level + 1)) read settled modest
      exact ⟨_, r, some, by omega, modest, blanks, literal_of_compound room object⟩
    · obtain ⟨t, skipped, shorter, modest, blanks⟩ := skipSpace_chars past modest
      rw [skipped] at scalar
      have taken : Takes limit level past Scalar t v rest :=
        readScalar_chars scalar settled modest
      obtain ⟨u, r, some, least, modest, more, form⟩ := taken
      rw [normalize_scalar form]
      exact ⟨u, r, some, by omega, modest, blanks.trans more, form.literal _⟩

/-! ## Whole texts -/

/-- A value of a whole text has nothing but blanks after it. -/
theorem of_ofText_whole {text : List Glyph} {v : Value} (h : Decoder.whole.ofText text = .ok v) :
    ∃ d rest w, readValue maxNesting .whole text = (d, rest) ∧ d.settle = .ok w ∧
      v = w.normalize ∧ ∀ r, rest = some r → skipSpace r = [] := by
  rcases reading : readValue maxNesting .whole text with ⟨d, rest⟩
  have decoded (after : Option Fault) (same : readText .whole text = (d, after)) :
      ∃ w, d.settle = .ok w ∧ v = w.normalize ∧ after = none := by
    simp only [Decoder.ofText, Decoder.whole, same] at h
    cases settled : d.settle with
    | error f => simp [settled, Except.map] at h
    | ok w =>
      cases after with
      | some f => simp [settled, Except.map] at h
      | none => exact ⟨w, rfl, by simpa [settled, Except.map] using h.symm, rfl⟩
  cases rest with
  | none =>
    obtain ⟨w, settled, same, -⟩ := decoded none (by rw [readText, reading])
    exact ⟨d, none, w, rfl, settled, same, fun r none => by cases none⟩
  | some r =>
    cases left : skipSpace r with
    | nil =>
      obtain ⟨w, settled, same, -⟩ := decoded none (by simp only [readText, reading, left])
      refine ⟨d, some r, w, rfl, settled, same, ?_⟩
      rintro _ ⟨⟩
      exact left
    | cons g more =>
      obtain ⟨_, _, _, none⟩ := decoded (some (faultAt .nothingAfter (g :: more)))
        (by simp only [readText, reading, left])
      cases none

/-- A text that was read to its end is a list of its one value, where the list ends after it. -/
theorem enclosed_of_ofText {text : String} {v : Value} {limit : Nat} (close : Char)
    (accepted : Decoder.whole.ofText (ofString text) = .ok v)
    (modest : Modest limit 0 text.toList) :
    Enclosed (Literal limit) close (text.toList ++ [close]) [v] [] := by
  obtain ⟨d, rest, w, read, settled, rfl, ended⟩ := of_ofText_whole accepted
  obtain ⟨t, r, rfl, -, modest, before, isLiteral⟩ :=
    borrows_readValue limit [close] maxNesting 0 _ _ _ _ read settled modest
  obtain ⟨u, skipped, -, -, after⟩ := skipSpace_chars [close] modest
  rw [ended _ rfl] at skipped
  obtain rfl := List.map_eq_nil_iff.1 skipped.symm
  exact .mk before (.some isLiteral .none) after

/-- A text that the reader of JSON takes is a parameter in the text form, and the same value: if its
arrays and objects nest at most 64 deep, and if its numbers are whole, of 64 bits and not the zero
with a minus sign. A condition with that text between its parentheses has that one parameter. -/
theorem a_json_text_is_a_parameter {rule text : String} {v : Value} (isName : Name rule.toList)
    (free : isReserved rule = false) (accepted : Decoder.whole.ofText (ofString text) = .ok v)
    (shallow : nesting text.toList ≤ 64) (whole : ∀ w ∈ numbers text.toList, WholeNumber w) :
    ∃ k : Condition, Criteria.ofText (rule ++ "(" ++ text ++ ")") = .ok (.leaf k) ∧
      k.rule = rule ∧ k.params = [v] := by
  have enclosed := enclosed_of_ofText ')' accepted ⟨shallow, whole⟩
  have canonical : ∀ w ∈ [v], w.Canonical :=
    enclosed.forall_mem fun _ _ _ isLiteral => isLiteral.canonical.1
  have call : Call (rule.toList ++ '(' :: (text.toList ++ [')'])) ⟨rule, [v], free, canonical⟩ [] :=
    .mk isName rfl .done enclosed
  have spelt : Spells (rule.toList ++ '(' :: (text.toList ++ [')']))
      (.leaf ⟨rule, [v], free, canonical⟩) := ⟨[], .one (.one (.call .done call)), .done⟩
  have same : (rule ++ "(" ++ text ++ ")").toList
      = rule.toList ++ '(' :: (text.toList ++ [')']) := by simp
  refine ⟨⟨rule, [v], free, canonical⟩, ?_, rfl, rfl⟩
  rw [Criteria.ofText, same, expression_complete spelt]

/-- Of two members with one name the later counts, however the characters of the names are
spelt. -/
theorem a_json_text_with_escapes_is_a_parameter :
    ∃ k : Condition,
      Criteria.ofText
        ("R" ++ "(" ++ " \x7b \"a\" : [1] ,\"\\u0061\":[\"\\uD83D\\ude00\\/\", -7, \x7b\x7d]\x7d " ++ ")")
        = .ok (.leaf k) ∧ k.rule = "R" ∧
      k.params = [.obj [("a", .arr [.str "😀/", .num (.int (-7) (by decide)), .obj []])]] := by
  have one : WholeNumber ['1'] :=
    ⟨by decide, [], false, ['1'], .absent, ⟨by decide, by simp⟩, rfl, by decide⟩
  have minusSeven : WholeNumber ['-', '7'] :=
    ⟨by decide, ['-'], true, ['7'], .present, ⟨by decide, by simp⟩, rfl, by decide⟩
  have both : ∀ w ∈ [['1'], ['-', '7']], WholeNumber w := by simp [one, minusSeven]
  exact a_json_text_is_a_parameter (.mk rfl (by simp)) rfl (by cbv) (by decide) both

end Permit.Json
