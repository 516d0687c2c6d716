-- Reading the values that were written: a value of whole numbers is read back if its nesting is
-- within the budget. Where the budget is spent the draft breaks off, as it does where a float is
-- given up, so that a decoder that looks at all of the value rejects it.
import Permit.Json.Decoder.Record
import Permit.Proofs.Json.Floats

namespace Permit.Json

open Text

variable {α β : Type}

/-! ## Values and what is read of them -/

/-- The draft breaks off inside a part of the value, with something before it. -/
inductive CutShort : Value → Draft → Prop
  | here (v : Value) (f : Failure) : CutShort v (.failed f)
  | item (before : List Draft) {vs : List Value} {v : Value} {d : Draft} :
    v ∈ vs → CutShort v d → CutShort (.arr vs) (.arr (before ++ [d]) none)
  | member (before : List (String × Draft)) {ms : List (String × Value)} {k : String} {v : Value}
    {d : Draft} : (k, v) ∈ ms → CutShort v d → CutShort (.obj ms) (.obj (before ++ [(k, d)]) none)

/-- The text of the value is read within the budget, and given up only if the value nests deeper or
has a float. -/
def Reads (read : List Glyph → Reading) (budget : Nat) (v : Value) : Prop :=
  ∀ rest, Ends rest →
    (v.depth ≤ budget ∧ read (v.write.map .char ++ rest) = (v.reread.toDraft, some rest)) ∨
    (¬ (v.depth ≤ budget ∧ v.Integral) ∧
      ∃ d, CutShort v d ∧ read (v.write.map .char ++ rest) = (d, none))

/-! ## Where values start -/

/-- A character that starts a value: no blank, no comma and no closing bracket. -/
def Opening (c : Char) : Prop :=
  c ≠ ' ' ∧ c ≠ '\n' ∧ c ≠ '\t' ∧ c ≠ '\r' ∧ c ≠ ',' ∧ c ≠ ']' ∧ c ≠ '\x7d'

instance (c : Char) : Decidable (Opening c) := inferInstanceAs (Decidable (_ ∧ _))

theorem Opening.skipSpace {c : Char} (h : Opening c) (s : List Glyph) :
    skipSpace (.char c :: s) = .char c :: s := by
  obtain ⟨space, feed, tab, ret, _⟩ := h
  simp [Json.skipSpace, space, feed, tab, ret]

/-- A digit and a minus sign start a value that is no array and no object. -/
theorem opening_number {c : Char} (h : c = '-' ∨ c.isDigit = true) :
    Opening c ∧ c ≠ '[' ∧ c ≠ '\x7b' := by
  obtain rfl | digit := h
  · decide
  · refine ⟨⟨?_, ?_, ?_, ?_, ?_, ?_, ?_⟩, ?_, ?_⟩ <;> rintro rfl <;> cases digit

/-- A scalar starts with a character of its own. -/
theorem write_scalar {v : Value} (scalar : v.depth = 0) :
    ∃ c cs, v.write = c :: cs ∧ Opening c ∧ c ≠ '[' ∧ c ≠ '\x7b' := by
  cases v with
  | null => exact ⟨'n', _, rfl, by decide⟩
  | bool b =>
    cases b with
    | false => exact ⟨'f', _, rfl, by decide⟩
    | true => exact ⟨'t', _, rfl, by decide⟩
  | num n =>
    cases n with
    | float x =>
      obtain ⟨c, cs, eq, first⟩ := write_float_head x
      exact ⟨c, cs, eq, opening_number first⟩
    | int i fits =>
      rw [Value.write, Number.write]
      unfold intDigits
      split
      · exact ⟨'-', _, rfl, opening_number (.inl rfl)⟩
      · obtain ⟨c, cs, eq, digit⟩ := natDigits_head i.natAbs
        exact ⟨c, cs, eq, opening_number (.inr digit)⟩
  | str s => exact ⟨'"', _, rfl, by decide⟩
  | arr items => cases scalar
  | obj members => cases scalar

theorem write_opening (v : Value) : ∃ c cs, v.write = c :: cs ∧ Opening c := by
  by_cases scalar : v.depth = 0
  · obtain ⟨c, cs, eq, opening, _⟩ := write_scalar scalar
    exact ⟨c, cs, eq, opening⟩
  · cases v with
    | arr items => exact ⟨'[', _, rfl, by decide⟩
    | obj members => exact ⟨'\x7b', _, rfl, by decide⟩
    | _ => exact absurd rfl scalar

/-! ## Lists -/

/-- The texts of the items that are left, each after a comma if it is not the first. -/
def itemsFrom (text : α → List Char) (first : Bool) : List α → List Char
  | [] => []
  | a :: rest => (if first then [] else [',']) ++ text a ++ itemsFrom text false rest

theorem listed_eq (text : α → List Char) (as : List α) :
    listed [] text as = itemsFrom text true as := by
  have more (as : List α) :
      (as.flatMap fun a => ',' :: ([] ++ text a)) = itemsFrom text false as := by
    induction as with
    | nil => rfl
    | cons a rest ih => simp [itemsFrom, ← ih]
  cases as with
  | nil => rfl
  | cons a rest => simp [listed, itemsFrom, ← more]

/-- After the first item each has at least its comma. -/
theorem length_le_itemsFrom (text : α → List Char) (as : List α) :
    as.length ≤ (itemsFrom text true as).length + 1 := by
  have more (as : List α) : as.length ≤ (itemsFrom text false as).length := by
    induction as with
    | nil => simp
    | cons a rest ih =>
      simp only [itemsFrom, List.length_append, List.length_cons]
      simp only [Bool.false_eq_true, if_false, List.length_singleton]
      omega
  cases as with
  | nil => simp
  | cons a rest =>
    have length := more rest
    simp only [itemsFrom, List.length_append, List.length_cons]
    omega

theorem ends_itemsFrom (text : α → List Char) (as : List α) (close : Char)
    (h : close = ']' ∨ close = '\x7d') (rest : List Glyph) :
    Ends ((itemsFrom text false as).map .char ++ .char close :: rest) := by
  cases as with
  | nil => exact .mark rest (.inr h)
  | cons a more => exact .mark _ (.inl rfl)

/-! ## Arrays -/

/-- The drafts of a list of which one item was given up. -/
def CutItems (vs : List Value) (ds : List Draft) : Prop :=
  ∃ before d, ∃ v ∈ vs, CutShort v d ∧ ds = before ++ [d]

theorem CutItems.cons {vs : List Value} {ds : List Draft} (h : CutItems vs ds) (v : Value)
    (first : Draft) : CutItems (v :: vs) (first :: ds) := by
  obtain ⟨before, d, w, hw, cut, rfl⟩ := h
  exact ⟨first :: before, d, w, List.mem_cons_of_mem v hw, cut, rfl⟩

/-- The next item starts after its comma. -/
theorem startOfItem_write (v : Value) (first : Bool) (s : List Glyph) :
    startOfItem first ((if first then [] else [',']).map .char ++ (v.write.map .char ++ s))
      = .ok (v.write.map .char ++ s) := by
  obtain ⟨c, cs, eq, opening⟩ := write_opening v
  -- A bracket here would close the array.
  have bracket : c ≠ ']' := opening.2.2.2.2.2.1
  have skipped := opening.skipSpace (cs.map .char ++ s)
  rw [eq, List.map_cons, List.cons_append]
  unfold startOfItem
  cases first with
  | true =>
    simp only [if_true, List.map_nil, List.nil_append, skipped]
    split
    · next heq => cases heq
    · next heq => cases heq; exact absurd rfl bracket
    · next heq => rw [heq]
  | false =>
    have comma (s : List Glyph) : skipSpace (.char ',' :: s) = .char ',' :: s := rfl
    simp only [Bool.false_eq_true, if_false, List.map_cons, List.map_nil, List.cons_append,
      List.nil_append, comma]
    split
    · next heq => cases heq
    · next heq => cases heq
    · next heq =>
      cases heq
      rw [if_pos rfl, skipped]
      split
      · next heq => cases heq
      · next heq => cases heq; exact absurd rfl bracket
      · rfl

/-- One item is read, and the reading goes on after it unless it was given up. -/
theorem readItems_step {read : List Glyph → Reading} {budget : Nat} {v : Value}
    (reads : Reads read budget v) {i : Nat} {s rest : List Glyph}
    (start : startOfItem (i == 0) s = .ok (v.write.map .char ++ rest)) (ends : Ends rest)
    (fuel : Nat) :
    (v.depth ≤ budget ∧ readItems (fun _ => some read) (fuel + 1) i s =
      (v.reread.toDraft :: (readItems (fun _ => some read) fuel (i + 1) rest).1,
        (readItems (fun _ => some read) fuel (i + 1) rest).2)) ∨
    (¬ (v.depth ≤ budget ∧ v.Integral) ∧ ∃ d, CutShort v d ∧
      readItems (fun _ => some read) (fuel + 1) i s = ([d], .lost)) := by
  obtain ⟨shallow, whole⟩ | ⟨beyond, d, cut, given⟩ := reads rest ends
  · exact .inl ⟨shallow, by simp only [readItems, start, whole]⟩
  · exact .inr ⟨beyond, d, cut, by simp only [readItems, start, given]⟩

/-- The items of a list are read one by one, up to the first that is given up. -/
theorem readItems_write {read : List Glyph → Reading} {budget : Nat} {vs : List Value}
    (each : ∀ v ∈ vs, Reads read budget v) {fuel i : Nat} (enough : vs.length < fuel)
    {first : Bool} (place : (i == 0) = first) (rest : List Glyph) :
    let text := (itemsFrom Value.write first vs).map Glyph.char ++ .char ']' :: rest
    (Value.depthItems vs ≤ budget ∧ readItems (fun _ => some read) fuel i text
      = (Value.toDraftItems (vs.map Value.reread), .closed rest)) ∨
    (¬ (Value.depthItems vs ≤ budget ∧ ∀ v ∈ vs, v.Integral) ∧
      ∃ ds, CutItems vs ds ∧ readItems (fun _ => some read) fuel i text = (ds, .lost)) := by
  induction vs generalizing fuel i first with
  | nil =>
    cases fuel with
    | zero => cases enough
    | succ fuel => exact .inl ⟨by simp [Value.depthItems], rfl⟩
  | cons v vs ih =>
    cases fuel with
    | zero => cases enough
    | succ fuel =>
      intro text
      have start : startOfItem (i == 0) text = .ok (v.write.map .char ++
          ((itemsFrom Value.write false vs).map .char ++ .char ']' :: rest)) := by
        rw [place, ← startOfItem_write v first]
        simp [text, itemsFrom]
      have later : (i + 1 == 0) = false := rfl
      rw [Value.depthItems, Nat.max_le, List.forall_mem_cons]
      obtain ⟨shallow, whole⟩ | ⟨beyond, d, cut, given⟩ := readItems_step (each v (by simp)) start
        (ends_itemsFrom Value.write vs ']' (.inl rfl) rest) fuel
      · rw [whole]
        obtain ⟨shallows, wholes⟩ | ⟨beyond, ds, cut, givens⟩ := ih
          (fun w hw => each w (by simp [hw])) (Nat.lt_of_succ_lt_succ enough) later
        · exact .inl ⟨⟨shallow, shallows⟩, by rw [wholes]; rfl⟩
        · exact .inr ⟨fun both => beyond ⟨both.1.2, both.2.2⟩, _, cut.cons v _, by rw [givens]⟩
      -- An item that is given up ends the reading, whatever the items after it are.
      · exact .inr ⟨fun both => beyond ⟨both.1.1, both.2.1⟩, [d],
          ⟨[], d, v, by simp, cut, rfl⟩, given⟩

/-- An array reads as its items do, with one level more. -/
theorem Reads.array {read : List Glyph → Reading} {outline : Outline} {budget : Nat}
    {vs : List Value}
    (opens : ∀ s, readValue (budget + 1) outline (.char '[' :: s)
      = readArray (fun _ => some read) s)
    (each : ∀ v ∈ vs, Reads read budget v) :
    Reads (readValue (budget + 1) outline) (budget + 1) (.arr vs) := by
  intro rest ends
  have text : (Value.arr vs).write.map .char ++ rest = .char '[' ::
      ((itemsFrom Value.write true vs).map .char ++ .char ']' :: rest) := by
    simp [Value.write, writeItems_eq, listed_eq]
  have enough : vs.length
      < ((itemsFrom Value.write true vs).map Glyph.char ++ .char ']' :: rest).length + 1 := by
    have length := length_le_itemsFrom Value.write vs
    rw [List.length_append, List.length_map, List.length_cons]
    omega
  have place : (0 == 0) = true := rfl
  rw [text, opens, Value.depth, Nat.add_le_add_iff_right, Value.integral_arr, Value.reread_arr]
  unfold readArray
  obtain ⟨shallow, whole⟩ | ⟨beyond, _, ⟨before, d, v, hv, cut, rfl⟩, given⟩ :=
    readItems_write each enough place rest
  · exact .inl ⟨shallow, by rw [whole]; rfl⟩
  · exact .inr ⟨beyond, _, .item before hv cut, by rw [given]; rfl⟩

/-! ## Objects -/

/-- The drafts of members of which the value of one was given up. -/
def CutMembers (ms : List (String × Value)) (ds : List (String × Draft)) : Prop :=
  ∃ before d, ∃ m ∈ ms, CutShort m.2 d ∧ ds = before ++ [(m.1, d)]

theorem CutMembers.cons {ms : List (String × Value)} {ds : List (String × Draft)}
    (h : CutMembers ms ds) (m : String × Value) (first : String × Draft) :
    CutMembers (m :: ms) (first :: ds) := by
  obtain ⟨before, d, n, hn, cut, rfl⟩ := h
  exact ⟨first :: before, d, n, List.mem_cons_of_mem m hn, cut, rfl⟩

/-- The next name starts after its comma and its quote. -/
theorem startOfMember_quote (first : Bool) (s : List Glyph) :
    startOfMember first ((if first then [] else [',']).map .char ++ .char '"' :: s) = .ok s := by
  cases first <;> rfl

/-- One member is read, and the reading goes on after it unless its value was given up. -/
theorem readMembers_step {value : String → List Glyph → Reading} {budget : Nat} {k : String}
    {v : Value} (reads : Reads (value k) budget v) {first : Bool} {s rest : List Glyph}
    (start : startOfMember first s = .ok ((k.toList.flatMap escape).map .char ++
      .char '"' :: .char ':' :: (v.write.map .char ++ rest))) (ends : Ends rest) (fuel : Nat) :
    (v.depth ≤ budget ∧ readMembers value (fuel + 1) first s =
      ((k, v.reread.toDraft) :: (readMembers value fuel false rest).1,
        (readMembers value fuel false rest).2)) ∨
    (¬ (v.depth ≤ budget ∧ v.Integral) ∧ ∃ d, CutShort v d ∧
      readMembers value (fuel + 1) first s = ([(k, d)], .lost)) := by
  have colon (s : List Glyph) : readAfterColon (value k) (.char ':' :: s) = value k s := rfl
  obtain ⟨shallow, whole⟩ | ⟨beyond, d, cut, given⟩ := reads rest ends
  · exact .inl ⟨shallow, by simp only [readMembers, start, scanString_quote, colon, whole]⟩
  · exact .inr ⟨beyond, d, cut, by simp only [readMembers, start, scanString_quote, colon, given]⟩

/-- The members of an object are read one by one, up to the first whose value is given up. -/
theorem readMembers_write {value : String → List Glyph → Reading} {budget : Nat}
    {ms : List (String × Value)} (each : ∀ m ∈ ms, Reads (value m.1) budget m.2) {fuel : Nat}
    (enough : ms.length < fuel) (first : Bool) (rest : List Glyph) :
    let text := (itemsFrom memberText first ms).map Glyph.char ++ .char '\x7d' :: rest
    (Value.depthMembers ms ≤ budget ∧ readMembers value fuel first text
      = (Value.toDraftMembers (ms.map fun m => (m.1, m.2.reread)), .closed rest)) ∨
    (¬ (Value.depthMembers ms ≤ budget ∧ ∀ m ∈ ms, m.2.Integral) ∧
      ∃ ds, CutMembers ms ds ∧ readMembers value fuel first text = (ds, .lost)) := by
  induction ms generalizing fuel first with
  | nil =>
    cases fuel with
    | zero => cases enough
    | succ fuel => exact .inl ⟨by simp [Value.depthMembers], rfl⟩
  | cons m ms ih =>
    obtain ⟨k, v⟩ := m
    cases fuel with
    | zero => cases enough
    | succ fuel =>
      intro text
      have start : startOfMember first text = .ok ((k.toList.flatMap escape).map .char ++
          .char '"' :: .char ':' :: (v.write.map .char ++
            ((itemsFrom memberText false ms).map .char ++ .char '\x7d' :: rest))) := by
        rw [← startOfMember_quote first]
        simp [text, itemsFrom, memberText, quote]
      have reads : Reads (value k) budget v := each (k, v) (by simp)
      rw [Value.depthMembers, Nat.max_le, List.forall_mem_cons]
      obtain ⟨shallow, whole⟩ | ⟨beyond, d, cut, given⟩ := readMembers_step reads start
        (ends_itemsFrom memberText ms '\x7d' (.inr rfl) rest) fuel
      · rw [whole]
        obtain ⟨shallows, wholes⟩ | ⟨beyond, ds, cut, givens⟩ := ih
          (fun w hw => each w (by simp [hw])) (Nat.lt_of_succ_lt_succ enough) false
        · exact .inl ⟨⟨shallow, shallows⟩, by rw [wholes]; rfl⟩
        · exact .inr ⟨fun both => beyond ⟨both.1.2, both.2.2⟩, _, cut.cons (k, v) _, by rw [givens]⟩
      · exact .inr ⟨fun both => beyond ⟨both.1.1, both.2.1⟩, [(k, d)],
          ⟨[], d, (k, v), by simp, cut, rfl⟩, given⟩

/-- An object reads as the values of its members do, with one level more. -/
theorem Reads.object (value : String → List Glyph → Reading) {outline : Outline} {budget : Nat}
    {ms : List (String × Value)}
    (opens : ∀ s, readValue (budget + 1) outline (.char '\x7b' :: s) = readObject value s)
    (each : ∀ m ∈ ms, Reads (value m.1) budget m.2) :
    Reads (readValue (budget + 1) outline) (budget + 1) (.obj ms) := by
  intro rest ends
  have text : (Value.obj ms).write.map .char ++ rest = .char '\x7b' ::
      ((itemsFrom memberText true ms).map .char ++ .char '\x7d' :: rest) := by
    simp [Value.write, writeMembers_eq, listed_eq]
  have enough : ms.length
      < ((itemsFrom memberText true ms).map Glyph.char ++ .char '\x7d' :: rest).length + 1 := by
    have length := length_le_itemsFrom memberText ms
    rw [List.length_append, List.length_map, List.length_cons]
    omega
  rw [text, opens, Value.depth, Nat.add_le_add_iff_right, Value.integral_obj, Value.reread_obj]
  unfold readObject
  obtain ⟨shallow, whole⟩ | ⟨beyond, _, ⟨before, d, m, hm, cut, rfl⟩, given⟩ :=
    readMembers_write each enough true rest
  · exact .inl ⟨shallow, by rw [whole]; rfl⟩
  · exact .inr ⟨beyond, _, .member before hm cut, by rw [given]; rfl⟩

/-! ## Whole values -/

theorem skipSpace_bracket (s : List Glyph) : skipSpace (.char '[' :: s) = .char '[' :: s := rfl

theorem skipSpace_brace (s : List Glyph) :
    skipSpace (.char '\x7b' :: s) = .char '\x7b' :: s := rfl

/-- Without a budget no array and no object is read. -/
theorem Reads.spent {outline : Outline} {v : Value} (deep : 0 < v.depth) :
    Reads (readValue 0 outline) 0 v := by
  intro rest ends
  refine .inr ⟨fun both => absurd both.1 (by omega), ?_⟩
  refine ⟨_, .here v (.fault (faultAt .nesting (v.write.map .char ++ rest))), ?_⟩
  cases v with
  | arr items =>
    rw [Value.write, List.cons_append, List.map_cons, List.cons_append]
    unfold readValue
    simp only [skipSpace_bracket]
    rfl
  | obj members =>
    rw [Value.write, List.cons_append, List.map_cons, List.cons_append]
    unfold readValue
    simp only [skipSpace_brace]
    rfl
  | _ => cases deep

theorem readValue_scalar (budget : Nat) {v : Value} (scalar : v.depth = 0) (rest : List Glyph) :
    readValue budget .whole (v.write.map .char ++ rest)
      = readScalar (v.write.map .char ++ rest) := by
  obtain ⟨c, cs, eq, opening, bracket, brace⟩ := write_scalar scalar
  rw [eq, List.map_cons, List.cons_append]
  unfold readValue
  simp only [opening.skipSpace]
  split <;> simp_all

theorem Reads.scalar (budget : Nat) {v : Value} (scalar : v.depth = 0) :
    Reads (readValue budget .whole) budget v := by
  intro rest ends
  have shallow : v.depth ≤ budget := by omega
  rw [readValue_scalar budget scalar]
  obtain read | ⟨float, f, failed⟩ := readScalar_reread scalar ends
  · exact .inl ⟨shallow, read⟩
  · exact .inr ⟨fun both => float both.2, _, .here v (.fault f), failed⟩

/-- A value that is looked at whole. -/
theorem Reads.whole (budget : Nat) (v : Value) : Reads (readValue budget .whole) budget v := by
  induction budget generalizing v with
  | zero =>
    by_cases scalar : v.depth = 0
    · exact .scalar 0 scalar
    · exact .spent (Nat.pos_of_ne_zero scalar)
  | succ budget ih =>
    cases v with
    | arr items =>
      refine .array (fun s => ?_) fun v _ => ih v
      unfold readValue
      simp only [skipSpace_bracket]
    | obj members =>
      refine .object (fun _ => readValue budget .whole) (fun s => ?_) fun m _ => ih m.2
      unfold readValue
      simp only [skipSpace_brace]
    | _ => exact .scalar _ rfl

/-- A list of items that are looked at alike. -/
theorem Reads.list {item : Outline} {vs : List Value}
    (each : ∀ budget, ∀ v ∈ vs, Reads (readValue budget item) budget v) (budget : Nat) :
    Reads (readValue budget (.list item)) budget (.arr vs) := by
  cases budget with
  | zero => exact .spent (by simp [Value.depth])
  | succ budget =>
    refine .array (fun s => ?_) (each budget)
    unfold readValue
    simp only [skipSpace_bracket]

/-- An object whose members are all known. -/
theorem Reads.record {fields : List (String × Outline)} {ms : List (String × Value)}
    (each : ∀ m ∈ ms, ∃ o, Outline.find? m.1 fields = some o ∧
      ∀ budget, Reads (readValue budget o) budget m.2) (budget : Nat) :
    Reads (readValue budget (.record fields)) budget (.obj ms) := by
  cases budget with
  | zero => exact .spent (by simp [Value.depth])
  | succ budget =>
    refine .object (fun name => ((Outline.find? name fields).map (readValue budget)).getD
      readSkipped) (fun s => ?_) fun m hm => ?_
    · unfold readValue
      simp only [skipSpace_brace]
    · obtain ⟨o, found, reads⟩ := each m hm
      rw [found]
      exact reads budget

end Permit.Json
