-- Lists with commas, and the literals that are built from them. What follows an item is a
-- comma or the closing character, so the reader takes each list as the grammar splits it.
import Permit.Proofs.Grammar.Words
import Permit.Proofs.Values

namespace Permit.Expression.Grammar

open Json

/-! ## What follows a literal -/

/-- The characters that end a list. -/
def IsClose (c : Char) : Prop := c = ']' ∨ c = '}' ∨ c = ')'

/-- What can stand after a literal: a blank, a comment, a comma or the end of a list. -/
def Delimited (s : List Char) : Prop :=
  ∃ c t, s = c :: t ∧ (isBlank c = true ∨ c = '#' ∨ c = ',' ∨ IsClose c)

theorem isBlank_close {c : Char} (h : IsClose c) : isBlank c = false ∧ c ≠ '#' := by
  rcases h with rfl | rfl | rfl <;> decide

theorem Blanks.delimited {s t : List Char} {c : Char} (h : Blanks s (c :: t))
    (ends : c = ',' ∨ IsClose c) : Delimited s := by
  obtain ⟨d, u, rfl, blank | sharp | rfl⟩ := h.head
  · exact ⟨d, u, rfl, .inl blank⟩
  · exact ⟨d, u, rfl, .inr (.inl sharp)⟩
  · exact ⟨_, u, rfl, .inr (.inr ends)⟩

/-- No number goes on after it. -/
theorem Delimited.noNumberChar {s : List Char} (h : Delimited s) : NoNumberChar s := by
  obtain ⟨c, t, rfl, kinds⟩ := h
  intro d u first
  cases first
  have : c = ' ' ∨ c = '\t' ∨ c = '\n' ∨ c = '\x0c' ∨ c = '\r' ∨ c = '#' ∨ c = ',' ∨ c = ']' ∨
      c = '}' ∨ c = ')' := by
    unfold isBlank IsClose at kinds
    simpa [or_assoc] using kinds
  rcases this with rfl | rfl | rfl | rfl | rfl | rfl | rfl | rfl | rfl | rfl <;> decide

theorem Blanks.trans {s t r : List Char} (h : Blanks s t) (more : Blanks t r) : Blanks s r := by
  induction h with
  | done => exact more
  | blank here _ ih => exact .blank here (ih more)
  | comment inside line _ ih => exact .comment inside line (ih more)

/-! ## Commas -/

theorem comma_sound {s t : List Char} (h : comma s = some t) :
    ∃ u, Blanks s (',' :: u) ∧ Blanks u t := by
  unfold comma at h
  have blanks := blanks_skipBlanks s
  split at h
  · next u heq =>
    cases h
    rw [heq] at blanks
    exact ⟨u, blanks, blanks_skipBlanks u⟩
  · cases h

theorem comma_complete {s t u : List Char} (before : Blanks s (',' :: u)) (after : Blanks u t)
    (item : NoBlank t) : comma s = some t := by
  rw [comma, skipBlanks_cons before rfl (by decide)]
  exact congrArg some (skipBlanks_eq after item)

theorem comma_none {s t : List Char} {c : Char} (h : Blanks s (c :: t)) (close : IsClose c) :
    comma s = none := by
  obtain ⟨blank, sharp⟩ := isBlank_close close
  rw [comma, skipBlanks_cons h blank sharp]
  rcases close with rfl | rfl | rfl <;> rfl

/-! ## Lists -/

section Lists

variable {α : Type} {item : Form α} {read : List Char → Parsed α}

theorem moreItems_sound (sound : Sound read item) (fuel : Nat) :
    Sound (moreItems comma read fuel) (More item) := by
  induction fuel with
  | zero =>
    intro s as r h
    cases h
    exact .none
  | succ fuel ih =>
    intro s as r h
    rw [moreItems] at h
    split at h
    · cases h
      exact .none
    · next isComma =>
      obtain ⟨u, before, after⟩ := comma_sound isComma
      split at h
      · split at h
        · cases h
        · cases h
          exact .none
      · next isItem =>
        obtain ⟨as, more, rfl⟩ := map_ok h
        exact .item before after (sound _ _ _ isItem) (ih _ _ _ more)

theorem separated_sound (sound : Sound read item) : Sound (separated comma read) (Items item) := by
  intro s as r h
  unfold separated at h
  split at h
  · split at h
    · cases h
    · cases h
      exact .none
  · next isItem =>
    obtain ⟨as, more, rfl⟩ := map_ok h
    exact .some (sound _ _ _ isItem) (moreItems_sound sound _ _ _ _ more)

theorem char_ok {c : Char} {s r : List Char} {x : Unit} :
    char c s = .ok (x, r) ↔ s = c :: r := by
  cases s with
  | nil => simp [char, stop]
  | cons d t =>
    rw [char]
    split
    · next same => simp [same]
    · next other => simp [stop, other]

/-- A character after blanks, once it is read. -/
theorem blanks_of_commit_char {c : Char} {s r : List Char} {x : Unit}
    (h : (char c (skipBlanks s)).commit = .ok (x, r)) : Blanks s (c :: r) := by
  rw [commit_ok, char_ok] at h
  rw [← h]
  exact blanks_skipBlanks s

theorem closing_complete {c : Char} {s r : List Char} (close : IsClose c)
    (h : Blanks s (c :: r)) : closing c s = .ok ((), r) := by
  obtain ⟨blank, sharp⟩ := isBlank_close close
  rw [closing, commit_ok, char_ok, skipBlanks_cons h blank sharp]

theorem enclosed_sound (sound : Sound read item) {close : Char} {s u r : List Char}
    {as : List α} {x : Unit} (items : separated comma read (skipBlanks s) = .ok (as, u))
    (ends : closing close u = .ok (x, r)) : Enclosed item close s as r :=
  .mk (blanks_skipBlanks s) (separated_sound sound _ _ _ items) (blanks_of_commit_char ends)

/-! ### Completeness -/

/-- What a list needs of its items: they are read where a comma or the end follows, do not
start with blanks, and are looked for in vain at the end of the list. -/
structure Readable (read : List Char → Parsed α) (item : Form α) : Prop where
  complete : Complete Delimited read item
  starts : ∀ s a r, item s a r → NoBlank s
  shrinks : Shrinks item
  stops : ∀ c s, IsClose c → ∃ f : Failure, read (c :: s) = .error f ∧ f.committed = false

theorem More.length_le (shrinks : Shrinks item) {s r : List Char} {as : List α}
    (h : More item s as r) : as.length + r.length ≤ s.length := by
  induction h with
  | none => simp
  | item before after isItem _ ih =>
    have := before.length_le
    have := after.length_le
    have := shrinks _ _ _ isItem
    simp only [List.length_cons] at *
    omega

/-- A comma or the end follows each item. -/
theorem More.delimited {s r t : List Char} {as : List α} {c : Char} (h : More item s as r)
    (ends : Blanks r (c :: t)) (close : IsClose c) : Delimited s := by
  cases h with
  | none => exact ends.delimited (.inr close)
  | item before _ _ _ => exact before.delimited (.inl rfl)

theorem moreItems_complete (readable : Readable read item) {s r t : List Char} {as : List α}
    {c : Char} (h : More item s as r) (ends : Blanks r (c :: t)) (close : IsClose c) :
    ∀ fuel, as.length ≤ fuel → moreItems comma read fuel s = .ok (as, r) := by
  induction h with
  | none =>
    intro fuel _
    cases fuel with
    | zero => rfl
    | succ fuel => rw [moreItems, comma_none ends close]
  | item before after isItem more ih =>
    intro fuel enough
    obtain ⟨fuel, rfl⟩ := Nat.exists_eq_add_of_lt enough
    have here := readable.complete _ _ _ isItem (more.delimited ends close)
    rw [moreItems, comma_complete before after (readable.starts _ _ _ isItem)]
    dsimp only
    rw [here]
    dsimp only
    rw [ih ends _ (by omega)]
    rfl

/-- The list is read up to where its closing character is found. -/
theorem enclosed_complete (readable : Readable read item) {close : Char} (isClose : IsClose close)
    {s r : List Char} {as : List α} (h : Enclosed item close s as r) :
    ∃ u, separated comma read (skipBlanks s) = .ok (as, u) ∧ closing close u = .ok ((), r) := by
  obtain ⟨before, items, after⟩ := h
  cases items with
  | none =>
    obtain ⟨blank, sharp⟩ := isBlank_close isClose
    obtain ⟨f, failed, soft⟩ := readable.stops close r isClose
    have start := skipBlanks_cons (before.trans after) blank sharp
    refine ⟨close :: r, ?_, closing_complete isClose .done⟩
    rw [start, separated, failed]
    simp [soft]
  | some isItem more =>
    refine ⟨_, ?_, closing_complete isClose after⟩
    have here := readable.complete _ _ _ isItem (more.delimited after isClose)
    have length := more.length_le readable.shrinks
    have shorter := readable.shrinks _ _ _ isItem
    rw [skipBlanks_eq before (readable.starts _ _ _ isItem), separated, here]
    dsimp only
    rw [moreItems_complete readable more after isClose _ (by omega)]
    rfl

/-- A list with its closing character is split in one way only. -/
theorem Enclosed.unique (readable : Readable read item) {close : Char} (isClose : IsClose close)
    {s r t : List Char} {as bs : List α} (h : Enclosed item close s as r)
    (h' : Enclosed item close s bs t) : as = bs ∧ r = t := by
  obtain ⟨u, items, ends⟩ := enclosed_complete readable isClose h
  obtain ⟨u', items', ends'⟩ := enclosed_complete readable isClose h'
  rw [items] at items'
  cases items'
  rw [ends] at ends'
  cases ends'
  exact ⟨rfl, rfl⟩

theorem Enclosed.length_lt (shrinks : Shrinks item) {close : Char} {s r : List Char}
    {as : List α} (h : Enclosed item close s as r) : r.length < s.length := by
  obtain ⟨before, items, after⟩ := h
  have := before.length_le
  have := after.length_le
  simp only [List.length_cons] at *
  cases items with
  | none => omega
  | some isItem more =>
    have := shrinks _ _ _ isItem
    have := more.length_le shrinks
    omega

end Lists

/-! ## Which literal it is -/

/-- Where no string, word or number starts, none is found, and all may still be an array or
an object. -/
theorem string_stops {c : Char} {s : List Char} (quote : c ≠ '"') :
    string (c :: s) = .error ⟨c :: s, false, [.terminatedString]⟩ := by
  unfold string
  split
  · next heq => exact absurd (List.cons.inj heq).1 quote
  · rfl

theorem number_stops {c : Char} {s : List Char} (digit : c.isDigit = false) (minus : c ≠ '-') :
    number (c :: s) = stop (c :: s) := by
  unfold number
  split
  next sign unsigned heq =>
  split at heq
  · next heq' => exact absurd (List.cons.inj heq').1 minus
  · obtain ⟨rfl, rfl⟩ := Prod.mk.inj heq
    simp [digit]

theorem wordLiteral?_none {c : Char} {s : List Char} (null : c ≠ 'n') (isTrue : c ≠ 't')
    (isFalse : c ≠ 'f') : wordLiteral? (c :: s) = none := by
  simp [wordLiteral?, word?, null.symm, isTrue.symm, isFalse.symm]

theorem wordLiteral?_eq_some {s r : List Char} {v : Value} (h : wordLiteral? s = some (v, r)) :
    Scalar s v r := by
  unfold wordLiteral? at h
  split at h
  · next word =>
    cases h
    rw [word?_eq_some.1 word]
    exact .null
  · split at h
    · next word =>
      cases h
      rw [word?_eq_some.1 word]
      exact .true
    · obtain ⟨t, word, same⟩ := Option.map_eq_some_iff.1 h
      cases same
      rw [word?_eq_some.1 word]
      exact .false

theorem orElse_ok {α : Type} {p : Parsed α} {q : Unit → Parsed α} {a : α} {r : List Char}
    (h : p.orElse q = .ok (a, r)) : p = .ok (a, r) ∨ q () = .ok (a, r) := by
  cases p with
  | ok x => exact .inl h
  | error f =>
    rw [Parsed.orElse] at h
    split at h
    · cases h
    · exact .inr h

theorem literal_array (n : Nat) (s : List Char) :
    literal (n + 1) ('[' :: s) = (arrayBody (literal n) s).expecting .literal := by
  rw [literal, string_stops (by decide), wordLiteral?_none (by decide) (by decide) (by decide),
    number_stops (by decide) (by decide)]
  rfl

theorem literal_object (n : Nat) (s : List Char) :
    literal (n + 1) ('\x7b' :: s) = (objectBody (literal n) s).expecting .literal := by
  rw [literal, string_stops (by decide), wordLiteral?_none (by decide) (by decide) (by decide),
    number_stops (by decide) (by decide)]
  rfl

/-- Nothing that ends a list starts a literal. -/
theorem literal_stops (n : Nat) {c : Char} {s : List Char} (close : IsClose c) :
    ∃ f : Failure, literal n (c :: s) = .error f ∧ f.committed = false := by
  rcases close with rfl | rfl | rfl
  all_goals
    unfold literal
    rw [string_stops (by decide), wordLiteral?_none (by decide) (by decide) (by decide),
      number_stops (by decide) (by decide)]
    exact ⟨_, rfl, rfl⟩

/-! ## Members -/

theorem member_sound {read : List Char → Parsed Value} {value : Form Value}
    (sound : Sound read value) : Sound (member read) (Member value) := by
  intro s m r h
  unfold member at h
  split at h
  · cases h
  · next isKey =>
    split at h
    · cases h
    · next isColon =>
      obtain ⟨v, isValue, rfl⟩ := map_ok h
      rw [commit_ok] at isValue
      exact .mk (string_sound _ _ _ isKey) (blanks_of_commit_char isColon) (blanks_skipBlanks _)
        (sound _ _ _ isValue)

theorem Quoted.noBlank {s r : List Char} {t : String} (h : Quoted s t r) : NoBlank s := by
  cases h with
  | mk _ => exact noBlank_cons rfl (by decide)

theorem Quoted.length_lt {s r : List Char} {t : String} (h : Quoted s t r) :
    r.length < s.length := by
  cases h with
  | mk body =>
    have := body.length_lt
    simp only [List.length_cons]
    omega

theorem readable_member {read : List Char → Parsed Value} {value : Form Value}
    (readable : Readable read value) : Readable (member read) (Member value) where
  complete := by
    intro s m r h ends
    cases h with
    | mk isKey before after isValue =>
      rw [member, string_complete isKey]
      dsimp only
      rw [commit_ok.2 (char_ok (x := ()).2 (skipBlanks_cons before rfl (by decide)))]
      dsimp only
      rw [skipBlanks_eq after (readable.starts _ _ _ isValue),
        commit_ok.2 (readable.complete _ _ _ isValue ends)]
      rfl
  starts := by
    intro s m r h
    cases h with
    | mk isKey _ _ _ => exact isKey.noBlank
  shrinks := by
    intro s m r h
    cases h with
    | mk isKey before after isValue =>
      have := isKey.length_lt
      have := before.length_le
      have := after.length_le
      have := readable.shrinks _ _ _ isValue
      simp only [List.length_cons] at *
      omega
  stops := by
    intro c s close
    have quote : c ≠ '"' := by rcases close with rfl | rfl | rfl <;> decide
    rw [member, string_stops quote]
    exact ⟨_, rfl, rfl⟩

/-! ## Whole literals -/

theorem arrayBody_sound {read : List Char → Parsed Value} {value : Form Value}
    (sound : Sound read value) {s r : List Char} {v : Value} (h : arrayBody read s = .ok (v, r)) :
    Compound value ('[' :: s) v r := by
  unfold arrayBody at h
  split at h
  · cases h
  · next isItems =>
    obtain ⟨_, ends, rfl⟩ := map_ok h
    exact .array (enclosed_sound sound isItems ends)

theorem objectBody_sound {read : List Char → Parsed Value} {value : Form Value}
    (sound : Sound read value) {s r : List Char} {v : Value} (h : objectBody read s = .ok (v, r)) :
    Compound value ('\x7b' :: s) v r := by
  unfold objectBody at h
  split at h
  · cases h
  · next isMembers =>
    obtain ⟨_, ends, rfl⟩ := map_ok h
    exact .object (enclosed_sound (member_sound sound) isMembers ends)

theorem Scalar.literal {s r : List Char} {v : Value} (h : Scalar s v r) (n : Nat) :
    Literal n s v r := by
  cases n with
  | zero => exact h
  | succ n => exact .inl h

/-- What is read is no array or object, or is one with a smaller budget inside. -/
theorem literal_cases {n : Nat} {s r : List Char} {v : Value} (h : literal n s = .ok (v, r)) :
    Scalar s v r ∨ ∃ m t, n = m + 1 ∧
      (s = '[' :: t ∧ arrayBody (literal m) t = .ok (v, r) ∨
        s = '\x7b' :: t ∧ objectBody (literal m) t = .ok (v, r)) := by
  unfold literal at h
  rw [expecting_ok] at h
  rcases orElse_ok h with h | h
  · obtain ⟨t, isString, rfl⟩ := map_ok h
    exact .inl (.string (string_sound _ _ _ isString))
  · split at h
    · next word =>
      cases h
      exact .inl (wordLiteral?_eq_some word)
    · rcases orElse_ok h with h | h
      · obtain ⟨t, isNumber, rfl⟩ := map_ok h
        exact .inl (.number (number_sound _ _ _ isNumber))
      · split at h
        · cases h
        · exact .inr ⟨_, _, rfl, .inl ⟨rfl, h⟩⟩
        · cases h
        · exact .inr ⟨_, _, rfl, .inr ⟨rfl, h⟩⟩
        · cases h

/-- Each literal that is read is one of the grammar, and its arrays and objects nest within the
budget. -/
theorem literal_sound (n : Nat) : Sound (literal n) (Literal n) := by
  induction n with
  | zero =>
    intro s v r h
    rcases literal_cases h with scalar | ⟨m, t, budget, _⟩
    · exact scalar
    · cases budget
  | succ n ih =>
    intro s v r h
    rcases literal_cases h with scalar | ⟨m, t, budget, ⟨rfl, body⟩ | ⟨rfl, body⟩⟩
    · exact .inl scalar
    · cases budget
      exact .inr (arrayBody_sound ih body)
    · cases budget
      exact .inr (objectBody_sound ih body)

/-- A number starts with a minus sign or a digit. -/
theorem digits_start {minus ds : List Char} {neg : Bool} (sign : Minus minus neg)
    (digits : Digits ds) (r : List Char) :
    ∃ c t, minus ++ ds ++ r = c :: t ∧ (c = '-' ∨ c.isDigit = true) := by
  cases sign with
  | absent =>
    obtain ⟨c, t, first, isDigit⟩ := digits.head (s := r)
    exact ⟨c, t, first, .inr isDigit⟩
  | present => exact ⟨'-', ds ++ r, rfl, .inl rfl⟩

theorem Numeral.head {s r : List Char} {n : Number} (h : Numeral s n r) :
    ∃ c t, s = c :: t ∧ (c = '-' ∨ c.isDigit = true) := by
  cases h with
  | whole signs digits _ => exact digits_start signs digits r
  | float signs digits _ _ _ _ =>
    rw [List.append_assoc, List.append_assoc]
    exact digits_start signs digits _

/-- What starts like a number starts like nothing else. -/
theorem number_head {c : Char} (h : c = '-' ∨ c.isDigit = true) :
    (isBlank c = false ∧ c ≠ '#') ∧ c ≠ '"' ∧ c ≠ 'n' ∧ c ≠ 't' ∧ c ≠ 'f' := by
  have apart : ∀ d : Char, d ≠ '-' → d.isDigit = false → c ≠ d := by
    intro d minus digit
    rintro rfl
    rcases h with h | h
    · exact minus h
    · rw [digit] at h
      cases h
  refine ⟨⟨?_, apart _ (by decide) rfl⟩, apart _ (by decide) rfl, apart _ (by decide) rfl,
    apart _ (by decide) rfl, apart _ (by decide) rfl⟩
  unfold isBlank
  simp [apart ' ' (by decide) rfl, apart '\t' (by decide) rfl, apart '\n' (by decide) rfl,
    apart '\x0c' (by decide) rfl, apart '\r' (by decide) rfl]

theorem scalar_noBlank {s r : List Char} {v : Value} (h : Scalar s v r) : NoBlank s := by
  cases h with
  | null => exact noBlank_cons rfl (by decide)
  | true => exact noBlank_cons rfl (by decide)
  | false => exact noBlank_cons rfl (by decide)
  | string quoted => exact quoted.noBlank
  | number numeral =>
    obtain ⟨c, t, rfl, head⟩ := numeral.head
    obtain ⟨⟨blank, sharp⟩, _⟩ := number_head head
    exact noBlank_cons blank sharp

theorem scalar_complete (n : Nat) : Complete Delimited (literal n) Scalar := by
  intro s v r h ends
  unfold literal
  rw [expecting_ok]
  cases h with
  | null => rfl
  | true => rfl
  | false => rfl
  | string quoted =>
    rw [string_complete quoted]
    rfl
  | number numeral =>
    have whole := number_complete _ _ _ numeral ends.noNumberChar
    obtain ⟨c, t, rfl, head⟩ := numeral.head
    obtain ⟨-, quote, null, isTrue, isFalse⟩ := number_head head
    rw [string_stops quote, wordLiteral?_none null isTrue isFalse, whole]
    rfl

theorem scalar_shrinks : Shrinks Scalar := by
  intro s v r h
  cases h with
  | string quoted => exact Nat.le_of_lt quoted.length_lt
  | number numeral => cases numeral <;> simp only [List.length_append] <;> omega
  | _ => simp only [List.length_append]; omega

/-- Each literal of the grammar is what is read where it stands. -/
theorem readable_literal (n : Nat) : Readable (literal n) (Literal n) := by
  induction n with
  | zero => exact ⟨scalar_complete 0, fun _ _ _ => scalar_noBlank, scalar_shrinks,
      fun _ _ => literal_stops 0⟩
  | succ n ih =>
    refine ⟨?_, ?_, ?_, fun _ _ => literal_stops (n + 1)⟩
    · intro s v r h ends
      rcases h with scalar | compound
      · exact scalar_complete (n + 1) s v r scalar ends
      · cases compound with
        | array items =>
          obtain ⟨u, isItems, closed⟩ := enclosed_complete ih (.inl rfl) items
          rw [literal_array, expecting_ok, arrayBody, isItems]
          dsimp only
          rw [closed]
          rfl
        | object members =>
          obtain ⟨u, isMembers, closed⟩ :=
            enclosed_complete (readable_member ih) (.inr (.inl rfl)) members
          rw [literal_object, expecting_ok, objectBody, isMembers]
          dsimp only
          rw [closed]
          rfl
    · intro s v r h
      rcases h with scalar | compound
      · exact scalar_noBlank scalar
      · cases compound <;> exact noBlank_cons rfl (by decide)
    · intro s v r h
      rcases h with scalar | compound
      · exact scalar_shrinks s v r scalar
      · cases compound with
        | array items =>
          have := items.length_lt ih.shrinks
          simp only [List.length_cons]
          omega
        | object members =>
          have := members.length_lt (readable_member ih).shrinks
          simp only [List.length_cons]
          omega

/-! ## More nesting -/

section Imp

variable {α : Type} {item other : Form α}

theorem More.imp (each : ∀ s a r, item s a r → other s a r) {s r : List Char} {as : List α}
    (h : More item s as r) : More other s as r := by
  induction h with
  | none => exact .none
  | item before after isItem _ ih => exact .item before after (each _ _ _ isItem) ih

theorem Enclosed.imp (each : ∀ s a r, item s a r → other s a r) {close : Char}
    {s r : List Char} {as : List α} (h : Enclosed item close s as r) :
    Enclosed other close s as r := by
  obtain ⟨before, items, after⟩ := h
  refine .mk before ?_ after
  cases items with
  | none => exact .none
  | some isItem more => exact .some (each _ _ _ isItem) (more.imp each)

end Imp

theorem Compound.imp {value other : Form Value} (each : ∀ s v r, value s v r → other s v r)
    {s r : List Char} {v : Value} (h : Compound value s v r) : Compound other s v r := by
  cases h with
  | array items => exact .array (items.imp each)
  | object members =>
    refine .object (members.imp fun s m r isMember => ?_)
    obtain ⟨isKey, before, after, isValue⟩ := isMember
    exact .mk isKey before after (each _ _ _ isValue)

/-- A literal stays one where more nesting is allowed. -/
theorem Literal.mono {n m : Nat} (h : n ≤ m) :
    ∀ s v r, Literal n s v r → Literal m s v r := by
  induction n generalizing m with
  | zero => exact fun _ _ _ scalar => scalar.literal m
  | succ n ih =>
    obtain ⟨m, rfl⟩ := Nat.exists_eq_add_of_lt h
    rintro s v r (scalar | compound)
    · exact scalar.literal _
    · exact .inr (compound.imp (ih (by omega)))

/-! ## The values of literals -/

theorem More.forall_mem {α : Type} {item : Form α} {P : α → Prop}
    (each : ∀ s a r, item s a r → P a) {s r : List Char} {as : List α}
    (h : More item s as r) : ∀ a ∈ as, P a := by
  induction h with
  | none => simp
  | item _ _ isItem _ ih =>
    intro a ha
    rcases List.mem_cons.1 ha with rfl | ha
    · exact each _ _ _ isItem
    · exact ih a ha

/-- What holds of each item holds of all items of a list. -/
theorem Enclosed.forall_mem {α : Type} {item : Form α} {P : α → Prop}
    (each : ∀ s a r, item s a r → P a) {close : Char} {s r : List Char} {as : List α}
    (h : Enclosed item close s as r) : ∀ a ∈ as, P a := by
  obtain ⟨_, items, _⟩ := h
  cases items with
  | none => simp
  | some isItem more =>
    intro a ha
    rcases List.mem_cons.1 ha with rfl | ha
    · exact each _ _ _ isItem
    · exact more.forall_mem each a ha

theorem scalar_depth {s r : List Char} {v : Value} (h : Scalar s v r) :
    v.Canonical ∧ v.depth = 0 := by
  cases h <;> simp [Value.Canonical, Value.depth]

/-- A literal is a value in canonical form that nests as its text does. -/
theorem Literal.canonical {n : Nat} {s r : List Char} {v : Value} (h : Literal n s v r) :
    v.Canonical ∧ v.depth ≤ n := by
  induction n generalizing s v r with
  | zero =>
    obtain ⟨canonical, depth⟩ := scalar_depth h
    exact ⟨canonical, Nat.le_of_eq depth⟩
  | succ n ih =>
    rcases h with scalar | compound
    · obtain ⟨canonical, depth⟩ := scalar_depth scalar
      exact ⟨canonical, depth ▸ Nat.zero_le _⟩
    · cases compound with
      | array items =>
        have each := items.forall_mem (P := fun v => v.Canonical ∧ v.depth ≤ n) fun _ _ _ => ih
        refine ⟨Value.canonicalItems_iff.2 fun v hv => (each v hv).1, ?_⟩
        rw [Value.depth]
        exact Nat.succ_le_succ (Value.depthItems_le.2 fun v hv => (each v hv).2)
      | object members =>
        have each := members.forall_mem (P := fun m => m.2.Canonical ∧ m.2.depth ≤ n) <| by
          intro s m r h
          cases h with
          | mk _ _ _ isValue => exact ih isValue
        refine ⟨Value.canonical_sortMembers (Value.canonicalMembers_iff.2 fun m hm =>
          (each m hm).1), ?_⟩
        rw [Value.depth]
        exact Nat.succ_le_succ (Value.depthMembers_le.2 fun m hm =>
          (each m (Value.mem_of_mem_sortMembers hm)).2)

end Permit.Expression.Grammar
