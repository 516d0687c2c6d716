-- Blanks, names, strings and numbers: the readers find a form of the grammar, and they find
-- each one that ends where it cannot go on.
import Permit.Proofs.Grammar.Basic

namespace Permit.Expression.Grammar

open Json

/-! ## Readers and forms -/

section Readers

variable {α : Type}

/-- What the reader takes is a form. -/
def Sound (read : List Char → Parsed α) (form : Form α) : Prop :=
  ∀ s a r, read s = .ok (a, r) → form s a r

/-- The reader takes each form after which `ends` holds of what is left. -/
def Complete (ends : List Char → Prop) (read : List Char → Parsed α) (form : Form α) : Prop :=
  ∀ s a r, form s a r → ends r → read s = .ok (a, r)

/-- A form leaves no more than it was given. -/
def Shrinks (form : Form α) : Prop := ∀ s a r, form s a r → r.length ≤ s.length

end Readers

/-! ## Blanks -/

/-- No blank and no comment stands at the start. -/
def NoBlank (s : List Char) : Prop := ∀ c t, s = c :: t → isBlank c = false ∧ c ≠ '#'

theorem noBlank_nil : NoBlank [] := by
  intro c t h
  cases h

theorem noBlank_cons {c : Char} {s : List Char} (blank : isBlank c = false) (sharp : c ≠ '#') :
    NoBlank (c :: s) := by
  intro d t h
  cases h
  exact ⟨blank, sharp⟩

theorem Blanks.length_le {s r : List Char} (h : Blanks s r) : r.length ≤ s.length := by
  induction h with
  | done => exact Nat.le_refl _
  | blank _ _ ih => simp only [List.length_cons]; omega
  | comment _ _ _ ih => simp only [List.length_cons, List.length_append]; omega

/-- What is skipped outside of a comment is blanks, and inside of one the rest of it. -/
theorem blanks_skip (s : List Char) :
    Blanks s (skip none s) ∧ ∀ body, (∀ c ∈ body, c ≠ '\n' ∧ c ≠ '\r') →
      Blanks ('#' :: (body ++ s)) (skip (some ('#' :: (body ++ s))) s) := by
  induction s with
  | nil =>
    refine ⟨by rw [skip]; exact .done, fun body inside => ?_⟩
    rw [skip]
    exact .comment inside .text .done
  | cons c rest ih =>
    have outside : Blanks (c :: rest) (skip none (c :: rest)) := by
      rw [skip]
      split
      · next blank => exact .blank blank ih.1
      · split
        · next sharp =>
          subst sharp
          simpa using ih.2 [] (by simp)
        · exact .done
    refine ⟨outside, fun body inside => ?_⟩
    rw [skip]
    split
    · next feed =>
      subst feed
      exact .comment inside .lineFeed (.blank rfl ih.1)
    · next feed =>
      split
      · next carriage =>
        subst carriage
        split
        · next next =>
          obtain ⟨t, rfl⟩ : ∃ t, rest = '\n' :: t := by
            cases rest with
            | nil => simp at next
            | cons d t => exact ⟨t, by simpa using next⟩
          exact .comment inside .carriageReturn (.blank rfl ih.1)
        · exact .done
      · next carriage =>
        have more := ih.2 (body ++ [c]) fun x hx => by
          rcases List.mem_append.1 hx with hx | hx
          · exact inside x hx
          · rw [List.mem_singleton.1 hx]
            exact ⟨feed, carriage⟩
        simpa using more

theorem blanks_skipBlanks (s : List Char) : Blanks s (skipBlanks s) := (blanks_skip s).1

theorem skip_of_noBlank {s : List Char} (h : NoBlank s) : skip none s = s := by
  cases s with
  | nil => rfl
  | cons c rest =>
    obtain ⟨blank, sharp⟩ := h c rest rfl
    simp [skip, blank, sharp]

/-- At the end of its line a comment is over. -/
theorem skip_endsLine {s : List Char} (h : EndsLine s) (start : List Char) :
    skip (some start) s = skip none s := by
  cases h with
  | text => rfl
  | lineFeed => simp [skip, isBlank]
  | carriageReturn => simp [skip, isBlank]

theorem skip_comment {body : List Char} (inside : ∀ c ∈ body, c ≠ '\n' ∧ c ≠ '\r')
    (start s : List Char) : skip (some start) (body ++ s) = skip (some start) s := by
  induction body with
  | nil => rfl
  | cons c rest ih =>
    have here := inside c (by simp)
    rw [List.cons_append, skip]
    simp [here, ih fun x hx => inside x (by simp [hx])]

/-- All blanks are skipped: what is left is the same for each derivation that ends where no
blank stands. -/
theorem skipBlanks_eq {s r : List Char} (h : Blanks s r) (ends : NoBlank r) :
    skipBlanks s = r := by
  unfold skipBlanks
  induction h with
  | done => exact skip_of_noBlank ends
  | blank here _ ih => rw [skip, if_pos here, ih ends]
  | comment inside line _ ih =>
    have sharp : isBlank '#' = false := by decide
    rw [skip]
    simp [sharp, skip_comment inside, skip_endsLine line, ih ends]

theorem skipBlanks_cons {s t : List Char} {c : Char} (h : Blanks s (c :: t))
    (blank : isBlank c = false) (sharp : c ≠ '#') : skipBlanks s = c :: t :=
  skipBlanks_eq h (noBlank_cons blank sharp)

/-- Nothing but blanks, comments and `c` can stand where blanks and then `c` follow. -/
theorem Blanks.head {s t : List Char} {c : Char} (h : Blanks s (c :: t)) :
    ∃ d u, s = d :: u ∧ (isBlank d = true ∨ d = '#' ∨ d = c) := by
  cases h with
  | done => exact ⟨c, t, rfl, .inr (.inr rfl)⟩
  | blank here _ => exact ⟨_, _, rfl, .inl here⟩
  | comment _ _ _ => exact ⟨_, _, rfl, .inr (.inl rfl)⟩

/-- Where no blank stands, a run of blanks is empty. -/
theorem Blanks.eq_of_noBlank {s r : List Char} (h : Blanks s r) (start : NoBlank s) : r = s := by
  cases h with
  | done => rfl
  | blank here _ =>
    rw [(start _ _ rfl).1] at here
    cases here
  | comment _ _ _ => exact absurd rfl (start _ _ rfl).2

/-! ## Names and words -/

theorem word?_eq_some {w s r : List Char} : word? w s = some r ↔ s = w ++ r := by
  induction w generalizing s with
  | nil => simp [word?]
  | cons c w ih =>
    cases s with
    | nil => simp [word?]
    | cons d s =>
      rw [word?]
      split
      · next same => simp [ih, same]
      · next other => simpa using fun h => absurd h.symm other

/-- A run of characters of one kind is taken whole. -/
theorem takeWhile_append_eq {p : Char → Bool} {l r : List Char} (inside : ∀ x ∈ l, p x = true)
    (ends : ∀ c t, r = c :: t → p c = false) :
    (l ++ r).takeWhile p = l ∧ (l ++ r).dropWhile p = r := by
  rw [List.takeWhile_append_of_pos inside, List.dropWhile_append_of_pos inside]
  cases r with
  | nil => simp
  | cons c t => simp [ends c t rfl]

/-- The characters of names are no blanks and no punctuation. -/
theorem nameChar_apart {c d : Char} (h : isNameChar c = true) (other : isNameChar d = false) :
    c ≠ d := by
  rintro rfl
  rw [h] at other
  cases other

theorem nameChar_noBlank {c : Char} {s : List Char} (h : isNameChar c = true) :
    NoBlank (c :: s) := by
  refine noBlank_cons ?_ (nameChar_apart h rfl)
  simp [isBlank, nameChar_apart h (d := ' ') rfl, nameChar_apart h (d := '\t') rfl,
    nameChar_apart h (d := '\n') rfl, nameChar_apart h (d := '\x0c') rfl,
    nameChar_apart h (d := '\r') rfl]

theorem isNameChar_of_isNameStart {c : Char} (h : isNameStart c = true) :
    isNameChar c = true := by
  unfold isNameStart at h
  unfold isNameChar Char.isAlphanum
  simp only [Bool.or_eq_true] at h ⊢
  rcases h with h | h
  · exact .inl (.inl h)
  · exact .inr h

theorem Name.forall_mem {n : List Char} (h : Name n) : ∀ c ∈ n, isNameChar c = true := by
  cases h with
  | mk start inside =>
    intro c hc
    rcases List.mem_cons.1 hc with rfl | hc
    · exact isNameChar_of_isNameStart start
    · exact inside c hc

theorem Name.head {n s : List Char} (h : Name n) :
    ∃ x t, n ++ s = x :: t ∧ isNameChar x = true := by
  have inside := h.forall_mem
  cases h with
  | mk _ _ => exact ⟨_, _, rfl, inside _ (by simp)⟩

theorem Name.noBlank {n s : List Char} (h : Name n) : NoBlank (n ++ s) := by
  have inside := h.forall_mem
  cases h with
  | mk _ _ => exact nameChar_noBlank (inside _ (by simp))

theorem name_sound {s n r : List Char} (h : name s = .ok (n, r)) : Name n ∧ s = n ++ r := by
  cases s with
  | nil => cases h
  | cons c rest =>
    rw [name] at h
    split at h
    · next start =>
      cases h
      refine ⟨.mk start fun x hx => List.all_eq_true.1 List.all_takeWhile x hx, ?_⟩
      rw [List.cons_append, List.takeWhile_append_dropWhile]
    · cases h

theorem name_complete {n r : List Char} (h : Name n) (ends : NoNameChar r) :
    name (n ++ r) = .ok (n, r) := by
  cases h with
  | mk start inside =>
    obtain ⟨taken, left⟩ := takeWhile_append_eq inside ends
    rw [List.cons_append, name, if_pos start, taken, left]

/-! ## Strings -/

theorem hexFour_sound : Sound hexFour HexFour := by
  intro s n r h
  unfold hexFour at h
  split at h
  · split at h
    · next a b c d rest w x y z hw hx hy hz =>
      cases h
      exact .mk hw hx hy hz
    · cases h
  · cases h

theorem hexFour_complete {s r : List Char} {n : Nat} (h : HexFour s n r) :
    hexFour s = .ok (n, r) := by
  cases h with
  | mk ha hb hc hd => simp [hexFour, ha, hb, hc, hd]

theorem HexFour.length {s r : List Char} {n : Nat} (h : HexFour s n r) :
    s.length = r.length + 4 := by
  cases h
  rfl

theorem shortEscape_iff {letter c : Char} :
    shortEscape? letter = some c ↔ ShortEscape letter c := by
  constructor
  · intro h
    unfold shortEscape? at h
    split at h <;> cases h <;> constructor
  · intro h
    cases h <;> rfl

theorem Body.length_lt {s cs r : List Char} (h : Body s cs r) : r.length < s.length := by
  induction h with
  | close => simp
  | plain _ _ _ ih => simp only [List.length_cons]; omega
  | short _ _ ih => simp only [List.length_cons]; omega
  | code hex _ _ ih =>
    have := hex.length
    simp only [List.length_cons]
    omega
  | pair first second _ _ _ ih =>
    have := first.length
    have := second.length
    simp only [List.length_cons] at *
    omega

theorem map_ok {α β : Type} {p : Parsed α} {f : α → β} {b : β} {r : List Char}
    (h : p.map f = .ok (b, r)) : ∃ a, p = .ok (a, r) ∧ f a = b := by
  cases p with
  | error e => cases h
  | ok x =>
    cases h
    exact ⟨_, rfl, rfl⟩

/-- A character that a code stands for, in front of a body. -/
theorem body_unicodeEscape {s t cs r : List Char} {c : Char}
    (h : unicodeEscape s = .ok (c, t)) (rest : Body t cs r) :
    Body ('\\' :: 'u' :: s) (c :: cs) r := by
  unfold unicodeEscape at h
  split at h
  · cases h
  · next code after first =>
    have first := hexFour_sound _ _ _ first
    split at h
    · next high =>
      simp only [isHighSurrogate, Bool.and_eq_true, decide_eq_true_eq] at high
      split at h
      · split at h
        · cases h
        · next low u second =>
          have second := hexFour_sound _ _ _ second
          split at h
          · next isLow =>
            simp only [isLowSurrogate, Bool.and_eq_true, decide_eq_true_eq] at isLow
            simp only [Except.ok.injEq, Prod.mk.injEq] at h
            obtain ⟨rfl, rfl⟩ := h
            unfold joinSurrogates
            exact .pair first second high isLow rest
          · cases h
      · cases h
    · next high =>
      simp only [isHighSurrogate, Bool.and_eq_true, decide_eq_true_eq] at high
      split at h
      · cases h
      · next low =>
        simp only [isLowSurrogate, Bool.and_eq_true, decide_eq_true_eq] at low
        cases h
        exact .code first (by omega) rest

theorem unicodeEscape_code {s t : List Char} {n : Nat} (h : HexFour s n t)
    (plain : ¬ (0xD800 ≤ n ∧ n < 0xE000)) : unicodeEscape s = .ok (Char.ofNat n, t) := by
  have high : isHighSurrogate n = false := by
    simp only [isHighSurrogate, Bool.and_eq_false_iff, decide_eq_false_iff_not]
    omega
  have low : isLowSurrogate n = false := by
    simp only [isLowSurrogate, Bool.and_eq_false_iff, decide_eq_false_iff_not]
    omega
  simp [unicodeEscape, hexFour_complete h, high, low]

theorem unicodeEscape_pair {s t u : List Char} {n m : Nat}
    (first : HexFour s n ('\\' :: 'u' :: t)) (second : HexFour t m u)
    (high : 0xD800 ≤ n ∧ n < 0xDC00) (low : 0xDC00 ≤ m ∧ m < 0xE000) :
    unicodeEscape s
      = .ok (Char.ofNat (0x10000 + (n - 0xD800) * 0x400 + (m - 0xDC00)), u) := by
  have isHigh : isHighSurrogate n = true := by simpa [isHighSurrogate] using high
  have isLow : isLowSurrogate m = true := by simpa [isLowSurrogate] using low
  simp [unicodeEscape, hexFour_complete first, hexFour_complete second, isHigh, isLow,
    joinSurrogates]

theorem stringBody_sound (fuel : Nat) : Sound (stringBody fuel) Body := by
  induction fuel with
  | zero =>
    intro s cs r h
    cases h
  | succ fuel ih =>
    intro s cs r h
    unfold stringBody at h
    split at h
    · cases h
    · cases h
    · next heq =>
      cases heq
      cases h
      exact .close
    · cases h
    · next heq =>
      cases heq
      split at h
      · cases h
      · next escape =>
        obtain ⟨tail, more, rfl⟩ := map_ok h
        exact body_unicodeEscape escape (ih _ _ _ more)
    · next heq =>
      cases heq
      split at h
      · cases h
      · next escape =>
        obtain ⟨tail, more, rfl⟩ := map_ok h
        exact .short (shortEscape_iff.1 escape) (ih _ _ _ more)
    · next c rest quote last mark other heq =>
      cases heq
      obtain ⟨tail, more, rfl⟩ := map_ok h
      refine .plain quote (fun backslash => ?_) (ih _ _ _ more)
      cases rest with
      | nil => exact last backslash rfl
      | cons letter rest => exact other letter rest backslash rfl

theorem stringBody_plain {c : Char} (quote : c ≠ '"') (backslash : c ≠ '\\') (fuel : Nat)
    (s : List Char) : stringBody (fuel + 1) (c :: s) = (stringBody fuel s).map (c :: ·) := by
  rw [stringBody]
  · exact quote
  · exact fun h => absurd h backslash
  · exact fun _ h => absurd h backslash
  · exact fun _ _ h => absurd h backslash

theorem stringBody_short {letter c : Char} (h : ShortEscape letter c) (fuel : Nat)
    (s : List Char) :
    stringBody (fuel + 1) ('\\' :: letter :: s) = (stringBody fuel s).map (c :: ·) := by
  have known := shortEscape_iff.2 h
  rw [stringBody, known]
  rintro rfl
  cases h

/-- Each character of a body takes one step. -/
theorem stringBody_complete {s cs r : List Char} (h : Body s cs r) :
    ∀ fuel, s.length < fuel → stringBody fuel s = .ok (cs, r) := by
  induction h with
  | close =>
    intro fuel enough
    obtain ⟨fuel, rfl⟩ := Nat.exists_eq_add_of_lt enough
    rw [stringBody]
  | plain quote backslash _ ih =>
    intro fuel enough
    obtain ⟨fuel, rfl⟩ := Nat.exists_eq_add_of_lt enough
    rw [stringBody_plain quote backslash, ih _ (by simp only [List.length_cons]; omega)]
    rfl
  | short escape _ ih =>
    intro fuel enough
    obtain ⟨fuel, rfl⟩ := Nat.exists_eq_add_of_lt enough
    rw [stringBody_short escape, ih _ (by simp only [List.length_cons]; omega)]
    rfl
  | code hex plain _ ih =>
    intro fuel enough
    obtain ⟨fuel, rfl⟩ := Nat.exists_eq_add_of_lt enough
    have := hex.length
    rw [stringBody, unicodeEscape_code hex plain]
    dsimp only
    rw [ih _ (by simp only [List.length_cons]; omega)]
    rfl
  | pair first second high low _ ih =>
    intro fuel enough
    obtain ⟨fuel, rfl⟩ := Nat.exists_eq_add_of_lt enough
    have := first.length
    have := second.length
    rw [stringBody, unicodeEscape_pair first second high low]
    dsimp only
    rw [ih _ (by simp only [List.length_cons] at *; omega)]
    rfl

theorem commit_ok {α : Type} {p : Parsed α} {a : α} {r : List Char} :
    p.commit = .ok (a, r) ↔ p = .ok (a, r) := by
  cases p with
  | error e => simp [Parsed.commit]
  | ok x => simp [Parsed.commit]

theorem expecting_ok {α : Type} {p : Parsed α} {e : Expectation} {a : α} {r : List Char} :
    p.expecting e = .ok (a, r) ↔ p = .ok (a, r) := by
  cases p with
  | error f => simp [Parsed.expecting]
  | ok x => simp [Parsed.expecting]

theorem string_sound : Sound string Quoted := by
  intro s t r h
  unfold string at h
  split at h
  · rw [expecting_ok, commit_ok] at h
    obtain ⟨cs, body, rfl⟩ := map_ok h
    exact .mk (stringBody_sound _ _ _ _ body)
  · rw [expecting_ok] at h
    cases h

theorem string_complete {s r : List Char} {t : String} (h : Quoted s t r) :
    string s = .ok (t, r) := by
  cases h with
  | mk body =>
    rw [string, expecting_ok, commit_ok, stringBody_complete body _ (Nat.lt_succ_self _)]
    rfl

/-! ## Numbers -/

/-- No digit, point or exponent mark stands at the start. -/
def NoNumberChar (s : List Char) : Prop :=
  ∀ c t, s = c :: t → c.isDigit = false ∧ c ≠ '.' ∧ c ≠ 'e' ∧ c ≠ 'E'

theorem fraction?_sound {s ds r : List Char} (h : fraction? s = some (ds, r)) :
    Digits ds ∧ s = '.' :: ds ++ r := by
  unfold fraction? at h
  split at h
  · next rest =>
    dsimp only at h
    split at h
    · cases h
    · next some =>
      cases h
      refine ⟨⟨some, fun c hc => List.all_eq_true.1 List.all_takeWhile c hc⟩, ?_⟩
      rw [List.cons_append, List.takeWhile_append_dropWhile]
  · cases h

theorem fraction?_none {s : List Char} (h : ∀ c t, s = c :: t → c ≠ '.') :
    fraction? s = none := by
  unfold fraction?
  split
  · next rest => exact absurd rfl (h '.' rest rfl)
  · rfl

theorem fraction?_complete {ds r : List Char} (h : Digits ds)
    (ends : ∀ c t, r = c :: t → c.isDigit = false) :
    fraction? ('.' :: ds ++ r) = some (ds, r) := by
  obtain ⟨taken, left⟩ := takeWhile_append_eq h.2 ends
  simp only [List.cons_append, fraction?, taken, left, h.1, if_false]

/-- Each text starts with a sign of an exponent, at least the absent one. -/
theorem Sign.exists (s : List Char) : ∃ sign neg t, Sign sign neg ∧ s = sign ++ t ∧
    (sign = [] → ∀ c u, t = c :: u → c ≠ '-' ∧ c ≠ '+') := by
  by_cases minus : ∃ t, s = '-' :: t
  · obtain ⟨t, rfl⟩ := minus
    exact ⟨['-'], true, t, .minus, rfl, by simp⟩
  · by_cases plus : ∃ t, s = '+' :: t
    · obtain ⟨t, rfl⟩ := plus
      exact ⟨['+'], false, t, .plus, rfl, by simp⟩
    · refine ⟨[], false, s, .absent, rfl, fun _ c u h => ⟨?_, ?_⟩⟩
      · rintro rfl
        exact minus ⟨u, h⟩
      · rintro rfl
        exact plus ⟨u, h⟩

theorem exponent?_eq {mark : Char} (isMark : mark = 'e' ∨ mark = 'E') {sign t : List Char}
    {neg : Bool} (h : Sign sign neg) (plain : sign = [] → ∀ c u, t = c :: u → c ≠ '-' ∧ c ≠ '+') :
    exponent? (mark :: (sign ++ t))
      = if t.takeWhile Char.isDigit = [] then none
        else some (signed neg (digitsValue (t.takeWhile Char.isDigit)),
          t.dropWhile Char.isDigit) := by
  unfold exponent?
  simp only [if_pos isMark]
  cases h with
  | plus => rfl
  | minus => rfl
  | absent =>
    rw [List.nil_append]
    split
    · exact absurd rfl (plain rfl _ _ rfl).1
    · exact absurd rfl (plain rfl _ _ rfl).2
    · rfl

theorem exponent?_sound {s r : List Char} {power : Int} (h : exponent? s = some (power, r)) :
    ∃ exponent, Exponent exponent power ∧ exponent ≠ [] ∧ s = exponent ++ r := by
  cases s with
  | nil => cases h
  | cons mark s =>
    by_cases isMark : mark = 'e' ∨ mark = 'E'
    · obtain ⟨sign, neg, t, signs, rfl, plain⟩ := Sign.exists s
      rw [exponent?_eq isMark signs plain] at h
      split at h
      · cases h
      · next some =>
        cases h
        refine ⟨_, .present isMark signs
          ⟨some, fun c hc => List.all_eq_true.1 List.all_takeWhile c hc⟩, by simp, ?_⟩
        simp
    · unfold exponent? at h
      simp only [if_neg isMark] at h
      cases h

theorem exponent?_none {s : List Char} (h : ∀ c t, s = c :: t → c ≠ 'e' ∧ c ≠ 'E') :
    exponent? s = none := by
  cases s with
  | nil => rfl
  | cons c t =>
    obtain ⟨lower, upper⟩ := h c t rfl
    unfold exponent?
    simp [lower, upper]

theorem exponent?_complete {exponent r : List Char} {power : Int}
    (h : Exponent exponent power) (some : exponent ≠ [])
    (ends : ∀ c t, r = c :: t → c.isDigit = false) :
    exponent? (exponent ++ r) = .some (power, r) := by
  cases h with
  | absent => exact absurd rfl some
  | @present mark sign neg ds isMark signs digits =>
    obtain ⟨taken, left⟩ := takeWhile_append_eq digits.2 ends
    have plain : sign = [] → ∀ c u, ds ++ r = c :: u → c ≠ '-' ∧ c ≠ '+' := by
      intro _ c u first
      obtain ⟨d, more, rfl⟩ := List.exists_cons_of_ne_nil digits.1
      cases first
      have := digits.2 c (by simp)
      exact ⟨by rintro rfl; revert this; decide, by rintro rfl; revert this; decide⟩
    rw [List.cons_append, List.append_assoc, exponent?_eq isMark signs plain, taken, left,
      if_neg digits.1]

theorem number_sound : Sound number Numeral := by
  intro s n r h
  unfold number at h
  split at h
  next neg unsigned heq =>
  obtain ⟨minus, signs, rfl⟩ : ∃ minus, Minus minus neg ∧ s = minus ++ unsigned := by
    split at heq
    · obtain ⟨rfl, rfl⟩ := Prod.mk.inj heq
      exact ⟨_, .present, rfl⟩
    · obtain ⟨rfl, rfl⟩ := Prod.mk.inj heq
      exact ⟨_, .absent, rfl⟩
  dsimp only at h
  split at h
  · cases h
  next some =>
  have digits : Digits (unsigned.takeWhile Char.isDigit) :=
    ⟨some, fun c hc => List.all_eq_true.1 List.all_takeWhile c hc⟩
  have parts := List.takeWhile_append_dropWhile (p := Char.isDigit) (l := unsigned)
  revert h digits parts
  generalize unsigned.takeWhile Char.isDigit = ds
  generalize unsigned.dropWhile Char.isDigit = rest
  rintro h digits rfl
  rcases hf : fraction? rest with _ | ⟨decimals, after⟩
  · rw [hf] at h
    rcases he : exponent? rest with _ | ⟨power, after⟩
    · simp only [Option.elim_none, he] at h
      split at h
      · next fits =>
        cases h
        rw [← List.append_assoc]
        exact .whole signs digits fits
      · cases h
    · simp only [Option.elim_none, Option.elim_some, he] at h
      obtain ⟨exponent, isExponent, there, rfl⟩ := exponent?_sound he
      split at h
      · next finite =>
        cases h
        have float := Numeral.float (r := r) signs digits .absent isExponent (.inr there) finite
        simpa using float
      · cases h
  · rw [hf] at h
    obtain ⟨isDecimals, rfl⟩ := fraction?_sound hf
    rcases he : exponent? after with _ | ⟨power, last⟩
    · simp only [Option.elim_none, Option.elim_some, he] at h
      split at h
      · next finite =>
        cases h
        have float := Numeral.float (r := r) signs digits (.present isDecimals) .absent
          (.inl (by simp)) finite
        simpa using float
      · cases h
    · simp only [Option.elim_some, he] at h
      obtain ⟨exponent, isExponent, there, rfl⟩ := exponent?_sound he
      split at h
      · next finite =>
        cases h
        have float := Numeral.float (r := r) signs digits (.present isDecimals) isExponent
          (.inr there) finite
        simpa using float
      · cases h

theorem Digits.head {ds s : List Char} (h : Digits ds) :
    ∃ d t, ds ++ s = d :: t ∧ d.isDigit = true := by
  obtain ⟨d, more, rfl⟩ := List.exists_cons_of_ne_nil h.1
  exact ⟨d, more ++ s, rfl, h.2 d (by simp)⟩

/-- The sign in front of digits is the one that is read. -/
theorem Minus.unique {minus ds rest unsigned : List Char} {neg sign : Bool}
    (signs : Minus minus neg) (digits : Digits ds)
    (h : (match minus ++ ds ++ rest with
      | '-' :: rest => (true, rest)
      | s => (false, s)) = (sign, unsigned)) : sign = neg ∧ unsigned = ds ++ rest := by
  cases signs with
  | present =>
    obtain ⟨rfl, rfl⟩ := Prod.mk.inj h
    exact ⟨rfl, rfl⟩
  | absent =>
    obtain ⟨d, t, first, isDigit⟩ := digits.head (s := rest)
    rw [List.nil_append, first] at h
    split at h
    · next heq =>
      cases heq
      cases isDigit
    · rw [first]
      obtain ⟨rfl, rfl⟩ := Prod.mk.inj h
      exact ⟨rfl, rfl⟩

/-- Neither digits nor a point go on where an exponent starts. -/
theorem Exponent.ends {exponent r : List Char} {power : Int} (h : Exponent exponent power)
    (ends : NoNumberChar r) :
    ∀ c t, exponent ++ r = c :: t → c.isDigit = false ∧ c ≠ '.' := by
  intro c t first
  cases h with
  | absent => exact ⟨(ends c t first).1, (ends c t first).2.1⟩
  | present isMark _ _ =>
    cases first
    rcases isMark with rfl | rfl <;> decide

/-- The digits of a number are over, and neither a fraction nor an exponent follows. -/
structure EndsDigits (r : List Char) : Prop where
  digit : ∀ c t, r = c :: t → c.isDigit = false
  fraction : ∀ part ds t, Fraction part ds → r = part ++ t → part = []
  exponent : ∀ part power t, Exponent part power → r = part ++ t → part = []

theorem EndsDigits.fraction?_eq {r : List Char} (h : EndsDigits r) : fraction? r = none := by
  rcases found : fraction? r with _ | ⟨ds, t⟩
  · rfl
  · obtain ⟨digits, rfl⟩ := fraction?_sound found
    cases h.fraction _ _ t (.present digits) rfl

theorem EndsDigits.exponent?_eq {r : List Char} (h : EndsDigits r) : exponent? r = none := by
  rcases found : exponent? r with _ | ⟨power, t⟩
  · rfl
  · obtain ⟨part, isExponent, there, rfl⟩ := exponent?_sound found
    exact absurd (h.exponent _ _ t isExponent rfl) there

theorem NoNumberChar.endsDigits {r : List Char} (h : NoNumberChar r) : EndsDigits r where
  digit c t first := (h c t first).1
  fraction part ds t isFraction first := by
    cases isFraction with
    | absent => rfl
    | present _ => exact absurd rfl (h _ _ first).2.1
  exponent part power t isExponent first := by
    cases isExponent with
    | absent => rfl
    | present isMark _ _ =>
      obtain ⟨-, -, lower, upper⟩ := h _ _ first
      rcases isMark with rfl | rfl
      · exact absurd rfl lower
      · exact absurd rfl upper

/-- Digits alone are one whole number up to their end, or the reading stops for good. -/
theorem number_of_digits {minus ds r : List Char} {neg : Bool} (sign : Minus minus neg)
    (digits : Digits ds) (ends : EndsDigits r) : number (minus ++ ds ++ r)
      = match Number.int? (signed neg (digitsValue ds)) with
        | some n => .ok (n, r)
        | none => abort r := by
  obtain ⟨taken, left⟩ := takeWhile_append_eq digits.2 ends.digit
  unfold number
  split
  next negative unsigned heq =>
  obtain ⟨rfl, rfl⟩ := sign.unique digits heq
  simp only [taken, left, if_neg digits.1, ends.fraction?_eq, Option.elim_none, ends.exponent?_eq]
  rfl

/-- A form of a number that nothing can prolong is what is read. -/
theorem number_complete : Complete NoNumberChar number Numeral := by
  intro s n r h ends
  have noDigit : ∀ c t, r = c :: t → c.isDigit = false := fun c t first => (ends c t first).1
  have noMark : ∀ c t, r = c :: t → c ≠ 'e' ∧ c ≠ 'E' := fun c t first => (ends c t first).2.2
  cases h with
  | whole signs digits fits => rw [number_of_digits signs digits ends.endsDigits, fits]
  | @float minus neg ds fraction decimals exponent power x r signs digits isFraction
      isExponent there finite =>
    have afterDecimals : ∀ c t, exponent ++ r = c :: t → c.isDigit = false :=
      fun c t first => (isExponent.ends ends c t first).1
    have afterDigits : ∀ c t, fraction ++ (exponent ++ r) = c :: t → c.isDigit = false := by
      intro c t first
      cases isFraction with
      | absent => exact afterDecimals c t first
      | present _ =>
        cases first
        rfl
    obtain ⟨taken, left⟩ := takeWhile_append_eq digits.2 afterDigits
    rw [List.append_assoc, List.append_assoc]
    unfold number
    split
    next sign unsigned heq =>
    obtain ⟨rfl, rfl⟩ := signs.unique digits heq
    simp only [taken, left, if_neg digits.1]
    cases isFraction with
    | absent =>
      have there : exponent ≠ [] := by simpa using there
      simp only [List.nil_append, Option.elim_none, exponent?_complete isExponent there noDigit,
        fraction?_none fun c t first => (isExponent.ends ends c t first).2, Option.elim_some]
      rw [finite]
    | present isDecimals =>
      simp only [fraction?_complete isDecimals afterDecimals, Option.elim_some]
      by_cases there : exponent = []
      · subst there
        cases isExponent
        simp only [List.nil_append, exponent?_none noMark, Option.elim_none]
        rw [finite]
      · simp only [exponent?_complete isExponent there noDigit, Option.elim_some]
        rw [finite]

end Permit.Expression.Grammar
