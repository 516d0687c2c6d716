-- Reading the floats that were written. The text of a float is scanned up to its end, whatever
-- follows, and gives a float, which need not be the same one, or no number at all.
import Permit.Proofs.Grammar.Floats
import Permit.Proofs.Json.Scalars

namespace Permit.Json

open Text Expression.Grammar

/-! ## Scanners of floats -/

/-- What is scanned in front of the rest: a float, or nothing. -/
inductive Scans (rest : List Glyph) : Option Binary64 → Scanned Number → Prop
  | float (y : Binary64) : Scans rest (some y) (.ok (.float y, rest))
  | given (f : Fault) : Scans rest none (.error f)

theorem Scans.eq_ok {rest : List Glyph} {y : Binary64} {s : Scanned Number}
    (h : Scans rest (some y) s) : s = .ok (.float y, rest) := by
  cases h
  rfl

theorem Scans.eq_error {rest : List Glyph} {s : Scanned Number} (h : Scans rest none s) :
    ∃ f, s = .error f := by
  cases h with
  | given f => exact ⟨f, rfl⟩

/-- The scanner finds the same float in the text, or none, whatever follows. -/
def Steady (scan : List Glyph → Scanned Number) (text : List Char) : Prop :=
  ∃ y, ∀ rest, Ends rest → Scans rest y (scan (text.map .char ++ rest))

theorem steady_floatOfParts (neg : Bool) (significand : Nat) (exponent : Int) :
    Steady (floatOfParts neg significand exponent) [] := by
  unfold floatOfParts
  cases Binary64.ofQuotient false significand 1 with
  | none => exact ⟨none, fun rest _ => .given _⟩
  | some f =>
    dsimp only
    split
    · split
      · exact ⟨_, fun rest _ => .float _⟩
      · split
        · exact ⟨none, fun rest _ => .given _⟩
        · cases (Binary64.ofDecimal false 1 exponent).bind f.mul with
          | none => exact ⟨none, fun rest _ => .given _⟩
          | some f => exact ⟨_, fun rest _ => .float _⟩
    · generalize lowerToRange 3 f exponent = lowered
      obtain ⟨f, exponent⟩ := lowered
      dsimp only
      split
      · exact ⟨_, fun rest _ => .float _⟩
      · exact ⟨_, fun rest _ => .float _⟩

/-- The values of digits. -/
def digitValues (ds : List Char) : List Nat := ds.map fun c => c.toNat - '0'.toNat

/-! ## Exponents -/

/-- Whether an exponent is too large shows in its digits alone. -/
theorem exponentValue_cases (value : Nat) (ds : List Nat) :
    (∃ e, ∀ s, exponentValue value ds s = .ok e) ∨
      ∀ s, ∃ after, exponentValue value ds s = .error after := by
  induction ds generalizing value with
  | nil => exact .inl ⟨value, fun s => rfl⟩
  | cons d ds ih =>
    simp only [exponentValue]
    by_cases large : 0x80000000 ≤ value * 10 + d
    · exact .inr fun s => ⟨s.drop 1, if_pos large⟩
    · simp only [if_neg large]
      exact (ih (value * 10 + d)).imp (fun ⟨e, same⟩ => ⟨e, fun s => same _⟩)
        fun failed s => failed _

/-- The digits of an exponent are those after its sign. -/
theorem scanExponent_eq (neg : Bool) (significand : Nat) (exponent : Int) (mark : Char)
    {sign ds : List Char} {below : Bool} (signs : Sign sign below) (digits : Digits ds)
    {rest : List Glyph} (ends : Ends rest) :
    scanExponent neg significand exponent ((mark :: (sign ++ ds)).map .char ++ rest) =
      match exponentValue 0 (digitValues ds) (ds.map .char ++ rest) with
      | .ok e => floatOfParts neg significand (if below then exponent - e else exponent + e) rest
      | .error after =>
        if significand ≠ 0 ∧ !below then .error (faultHere .numberRange after)
        else .ok (.float (Binary64.zero neg), rest) := by
  have taken := takeDigits_append digits.2 (takeDigits_of_ends ends)
  obtain ⟨c, cs, rfl⟩ := List.exists_cons_of_ne_nil digits.1
  rw [List.map_cons, List.map_cons, List.cons_append] at taken
  have first : c.isDigit = true := digits.2 c (by simp)
  unfold scanExponent
  cases signs with
  | absent =>
    have plus : c ≠ '+' := by rintro rfl; cases first
    have minus : c ≠ '-' := by rintro rfl; cases first
    simp only [List.nil_append, List.map_cons, List.cons_append, List.drop_succ_cons,
      List.drop_zero, List.cons.injEq, Glyph.char.injEq, plus, minus, false_and, forall_false,
      implies_true, taken]
    rfl
  | plus =>
    simp only [List.cons_append, List.nil_append, List.map_cons, List.drop_succ_cons,
      List.drop_zero, taken]
    rfl
  | minus =>
    simp only [List.cons_append, List.nil_append, List.map_cons, List.drop_succ_cons,
      List.drop_zero, taken]
    rfl

theorem steady_scanExponent (neg : Bool) (significand : Nat) (exponent : Int) {text : List Char}
    {power : Int} (h : Exponent text power) (there : text ≠ []) :
    Steady (scanExponent neg significand exponent) text := by
  cases h with
  | absent => exact absurd rfl there
  | @present mark sign below ds isMark signs digits =>
    rcases exponentValue_cases 0 (digitValues ds) with ⟨e, value⟩ | large
    · obtain ⟨y, steady⟩ := steady_floatOfParts neg significand
        (if below then exponent - e else exponent + e)
      refine ⟨y, fun rest ends => ?_⟩
      rw [scanExponent_eq neg significand exponent mark signs digits ends, value]
      exact steady rest ends
    · by_cases overflows : significand ≠ 0 ∧ !below
      · refine ⟨none, fun rest ends => ?_⟩
        obtain ⟨after, failed⟩ := large (ds.map .char ++ rest)
        rw [scanExponent_eq neg significand exponent mark signs digits ends, failed]
        dsimp only
        rw [if_pos overflows]
        exact .given _
      · refine ⟨some (Binary64.zero neg), fun rest ends => ?_⟩
        obtain ⟨after, failed⟩ := large (ds.map .char ++ rest)
        rw [scanExponent_eq neg significand exponent mark signs digits ends, failed]
        dsimp only
        rw [if_neg overflows]
        exact .float _

/-- An exponent starts with its mark, which is no digit. -/
theorem startsExponent_text {text : List Char} {power : Int} (h : Exponent text power)
    {rest : List Glyph} (ends : Ends rest) :
    startsExponent (text.map .char ++ rest) = decide (text ≠ []) ∧
      takeDigits (text.map .char ++ rest) = ([], text.map .char ++ rest) := by
  cases h with
  | absent =>
    refine ⟨?_, takeDigits_of_ends ends⟩
    cases ends with
    | text => rfl
    | mark rest h => rcases h with rfl | rfl | rfl <;> rfl
  | present isMark signs digits => rcases isMark with rfl | rfl <;> exact ⟨rfl, rfl⟩

/-- An exponent, if there is one, ends the number. -/
theorem steady_end (neg : Bool) (significand : Nat) (exponent : Int) {text : List Char}
    {power : Int} (h : Exponent text power) :
    Steady (fun s => if startsExponent s then scanExponent neg significand exponent s
      else floatOfParts neg significand exponent s) text := by
  by_cases there : text = []
  · obtain ⟨y, steady⟩ := steady_floatOfParts neg significand exponent
    refine ⟨y, fun rest ends => ?_⟩
    dsimp only
    rw [(startsExponent_text h ends).1, if_neg (by simp [there]), there]
    exact steady rest ends
  · obtain ⟨y, steady⟩ := steady_scanExponent neg significand exponent h there
    refine ⟨y, fun rest ends => ?_⟩
    dsimp only
    rw [(startsExponent_text h ends).1, if_pos (by simp [there])]
    exact steady rest ends

/-! ## Fractions -/

theorem steady_scanFraction (neg : Bool) (significand : Nat) (exponent : Int)
    {decimals text : List Char} {power : Int} (digits : Digits decimals)
    (h : Exponent text power) :
    Steady (scanFraction neg significand exponent) ('.' :: (decimals ++ text)) := by
  obtain ⟨c, cs, rfl⟩ := List.exists_cons_of_ne_nil digits.1
  obtain ⟨y, steady⟩ := steady_end neg (extend significand (digitValues (c :: cs))).1
    (exponent - ((digitValues (c :: cs)).length
      - (extend significand (digitValues (c :: cs))).2.length)) h
  refine ⟨y, fun rest ends => ?_⟩
  have taken := takeDigits_append digits.2 (startsExponent_text h ends).2
  have after : (('.' :: (c :: cs ++ text)).map Glyph.char ++ rest).drop 1
      = (c :: cs).map .char ++ (text.map .char ++ rest) := by simp
  unfold scanFraction
  rw [after, taken]
  exact steady rest ends

/-! ## Numbers -/

/-- With a point or an exponent after its first digits a number is a float. -/
theorem steady_scanAfterDigits (neg : Bool) (ds : List Nat) {fraction decimals text : List Char}
    {power : Int} (f : Fraction fraction decimals) (h : Exponent text power)
    (there : fraction ≠ [] ∨ text ≠ []) :
    Steady (scanAfterDigits neg ds) (fraction ++ text) := by
  cases f with
  | present digits =>
    obtain ⟨y, steady⟩ := steady_scanFraction neg (extend 0 ds).1 (extend 0 ds).2.length digits h
    exact ⟨y, steady⟩
  | absent =>
    have some : text ≠ [] := there.resolve_left (by simp)
    obtain ⟨y, steady⟩ := steady_scanExponent neg (extend 0 ds).1 (extend 0 ds).2.length h some
    refine ⟨y, fun rest ends => ?_⟩
    cases h with
    | absent => exact absurd rfl some
    | present isMark signs digits => rcases isMark with rfl | rfl <;> exact steady rest ends

/-- The first digits of a number stand alone if they start with a zero. -/
theorem scanNumber_cases (neg : Bool) {ds : List Nat} (some : ds ≠ []) :
    (∀ s rest, takeDigits s = (ds, rest) → scanNumber neg s = scanAfterDigits neg ds rest) ∨
      ∀ s rest, takeDigits s = (ds, rest) → ∃ f, scanNumber neg s = .error f := by
  unfold scanNumber
  match ds with
  | [] => exact absurd rfl some
  | [0] => exact .inl fun s rest taken => by rw [taken]; rfl
  | [n + 1] => exact .inl fun s rest taken => by rw [taken]; rfl
  | 0 :: d :: ds => exact .inr fun s rest taken => ⟨_, by rw [taken]; rfl⟩
  | (n + 1) :: d :: ds => exact .inl fun s rest taken => by rw [taken]; rfl

theorem steady_scanNumber (neg : Bool) {digits fraction decimals text : List Char} {power : Int}
    (first : Digits digits) (f : Fraction fraction decimals) (h : Exponent text power)
    (there : fraction ≠ [] ∨ text ≠ []) :
    Steady (scanNumber neg) (digits ++ (fraction ++ text)) := by
  have some : digitValues digits ≠ [] := by simpa [digitValues] using first.1
  have taken {rest : List Glyph} (ends : Ends rest) :
      takeDigits ((digits ++ (fraction ++ text)).map .char ++ rest)
        = (digitValues digits, (fraction ++ text).map .char ++ rest) := by
    have stops : takeDigits ((fraction ++ text).map .char ++ rest)
        = ([], (fraction ++ text).map .char ++ rest) := by
      cases f with
      | absent => exact (startsExponent_text h ends).2
      | present digits => rfl
    rw [List.map_append, List.append_assoc]
    exact takeDigits_append first.2 stops
  rcases scanNumber_cases neg some with after | failed
  · obtain ⟨y, steady⟩ := steady_scanAfterDigits neg (digitValues digits) f h there
    refine ⟨y, fun rest ends => ?_⟩
    rw [after _ _ (taken ends)]
    exact steady rest ends
  · refine ⟨none, fun rest ends => ?_⟩
    obtain ⟨f, failed⟩ := failed _ _ (taken ends)
    rw [failed]
    exact .given f

/-! ## Values as they are read -/

/-- The float that the text of a float is read as. -/
def rereadFloat (x : Binary64) : Binary64 :=
  match readScalar ((x.write floatLayout).map .char) with
  | (.num (.float y), _) => y
  | _ => x

/-- The text of a float is its sign and a number with a point or an exponent. -/
theorem write_float (x : Binary64) : ∃ digits fraction decimals text power, Digits digits ∧
    Fraction fraction decimals ∧ Exponent text power ∧ (fraction ≠ [] ∨ text ≠ []) ∧
    x.write floatLayout = (if x.neg then ['-'] else []) ++ (digits ++ (fraction ++ text)) := by
  have whole : Writes (x.shortest.write floatLayout) (decimalValue x.shortest) :=
    writes_write rfl x.shortest
  obtain ⟨digits, fraction, decimals, text, power, first, f, h, there, written, _⟩ := whole
  refine ⟨digits, fraction, decimals, text, power, first, f, h, there, ?_⟩
  rw [Binary64.write, written, List.append_assoc]

theorem write_float_head (x : Binary64) :
    ∃ c cs, x.write floatLayout = c :: cs ∧ (c = '-' ∨ c.isDigit = true) := by
  obtain ⟨digits, fraction, decimals, text, power, first, _, _, _, written⟩ := write_float x
  obtain ⟨c, cs, rfl⟩ := List.exists_cons_of_ne_nil first.1
  rw [written]
  cases x.neg with
  | true => exact ⟨_, _, rfl, .inl rfl⟩
  | false => exact ⟨_, _, rfl, .inr (first.2 c (by simp))⟩

/-- The text of a float is read as one float, or the reading breaks. -/
theorem readScalar_float (x : Binary64) {rest : List Glyph} (ends : Ends rest) :
    readScalar ((x.write floatLayout).map .char ++ rest)
      = (.num (.float (rereadFloat x)), some rest) ∨
      ∃ f, readScalar ((x.write floatLayout).map .char ++ rest) = broken f := by
  obtain ⟨digits, fraction, decimals, text, power, first, f, h, there, written⟩ := write_float x
  obtain ⟨y, steady⟩ := steady_scanNumber x.neg first f h there
  have number (rest : List Glyph) : readScalar ((x.write floatLayout).map .char ++ rest)
      = (scanNumber x.neg ((digits ++ (fraction ++ text)).map .char ++ rest)).toReading .num := by
    rw [written]
    cases x.neg with
    | true => rfl
    | false =>
      obtain ⟨c, cs, rfl⟩ := List.exists_cons_of_ne_nil first.1
      exact readScalar_digit (first.2 c (by simp)) _
  rw [number]
  cases y with
  | none =>
    obtain ⟨f, failed⟩ := (steady rest ends).eq_error
    exact .inr ⟨f, by rw [failed]; rfl⟩
  | some y =>
    have alone := number []
    rw [(steady [] .text).eq_ok, List.append_nil] at alone
    have same : rereadFloat x = y := by
      rw [rereadFloat, alone]
      rfl
    exact .inl (by rw [(steady rest ends).eq_ok, same]; rfl)

/-- The value that the text of a value is read as: its floats are read as other floats, and all
else is kept. -/
def Value.reread (v : Value) : Value := v.withFloats rereadFloat

theorem Value.reread_of_integral {v : Value} (integral : v.Integral) : v.reread = v :=
  withFloats_of_integral rereadFloat v integral

@[simp]
theorem Value.reread_arr (vs : List Value) : (arr vs).reread = .arr (vs.map reread) :=
  congrArg arr (withFloatsItems_eq rereadFloat vs)

@[simp]
theorem Value.reread_obj (ms : List (String × Value)) :
    (obj ms).reread = .obj (ms.map fun m => (m.1, m.2.reread)) :=
  congrArg obj (withFloatsMembers_eq rereadFloat ms)

@[simp]
theorem Value.reread_str (s : String) : (str s).reread = .str s := rfl

/-- A value that is no array and no object is read, or a float in it is given up. -/
theorem readScalar_reread {v : Value} (scalar : v.depth = 0) {rest : List Glyph}
    (ends : Ends rest) :
    readScalar (v.write.map .char ++ rest) = (v.reread.toDraft, some rest) ∨
      ¬ v.Integral ∧ ∃ f, readScalar (v.write.map .char ++ rest) = broken f := by
  by_cases whole : v.Integral
  · exact .inl (by rw [readScalar_write scalar whole ends, Value.reread_of_integral whole])
  · refine (?_ : _ ∨ _).imp_right fun failed => ⟨whole, failed⟩
    cases v with
    | num n =>
      cases n with
      | int i fits => exact absurd trivial whole
      | float x => exact readScalar_float x ends
    | arr items => cases scalar
    | obj members => cases scalar
    | _ => exact absurd trivial whole

end Permit.Json
