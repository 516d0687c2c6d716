-- Bytes as text: characters are read from their encodings, and where no encoding stands, the
-- longest beginning of one, or else a single byte, counts as junk.
import Mathlib.Data.List.Infix
import Mathlib.Tactic.SplitIfs
import Permit.Text.Utf8

namespace Permit.Text

/-! ## Encodings -/

/-- The bytes begin the encoding of a character. -/
def Begins (bytes : List UInt8) : Prop := ∃ c, bytes <+: String.utf8EncodeChar c

/-- A byte that goes on with an encoding. -/
def Tail (b : UInt8) : Prop := 0x80 ≤ b.toNat ∧ b.toNat ≤ 0xBF

/-- The bounds of a second byte shut out overlong forms, surrogates and codes past the last. -/
def Second (a b : UInt8) : Prop :=
  Tail b ∧ (a.toNat = 0xE0 → 0xA0 ≤ b.toNat) ∧ (a.toNat = 0xED → b.toNat ≤ 0x9F) ∧
    (a.toNat = 0xF0 → 0x90 ≤ b.toNat) ∧ (a.toNat = 0xF4 → b.toNat ≤ 0x8F)

theorem byte_eq {n : Nat} {b : UInt8} (h : n = b.toNat) : UInt8.ofNat n = b := by
  rw [h, UInt8.ofNat_toNat]

theorem toNat_ofNat {n : Nat} (valid : n.isValidChar) : (Char.ofNat n).val.toNat = n := by
  rw [Char.ofNat, dif_pos valid]
  rfl

/-- The encoding of a character, by the number of its bytes. -/
theorem encode_cases (c : Char) :
    (∃ a : UInt8, String.utf8EncodeChar c = [a] ∧ a.toNat < 0x80 ∧ c.toNat = a.toNat) ∨
    (∃ a b : UInt8, String.utf8EncodeChar c = [a, b] ∧ (0xC2 ≤ a.toNat ∧ a.toNat ≤ 0xDF) ∧ Tail b ∧
      c.toNat = (a.toNat - 0xC0) * 64 + (b.toNat - 0x80)) ∨
    (∃ a b d : UInt8, String.utf8EncodeChar c = [a, b, d] ∧ (0xE0 ≤ a.toNat ∧ a.toNat ≤ 0xEF) ∧
      Second a b ∧ Tail d ∧
      c.toNat = ((a.toNat - 0xE0) * 64 + (b.toNat - 0x80)) * 64 + (d.toNat - 0x80)) ∨
    ∃ a b d e : UInt8, String.utf8EncodeChar c = [a, b, d, e] ∧
      (0xF0 ≤ a.toNat ∧ a.toNat ≤ 0xF4) ∧ Second a b ∧ Tail d ∧ Tail e ∧
      c.toNat = (((a.toNat - 0xF0) * 64 + (b.toNat - 0x80)) * 64 + (d.toNat - 0x80)) * 64
        + (e.toNat - 0x80) := by
  have valid : c.val.toNat.isValidChar := c.valid
  have same : c.toNat = c.val.toNat := rfl
  unfold Nat.isValidChar at valid
  have byte {n : Nat} (h : n < 256) : (UInt8.ofNat n).toNat = n := UInt8.toNat_ofNat_of_lt' h
  unfold Second Tail
  rw [same]
  unfold String.utf8EncodeChar
  generalize c.val.toNat = n at *
  dsimp only
  split_ifs with one two three
  · refine .inl ⟨_, rfl, ?_⟩
    rw [byte (by omega)]
    omega
  · refine .inr (.inl ⟨_, _, rfl, ?_⟩)
    rw [byte (by omega), byte (by omega)]
    omega
  · refine .inr (.inr (.inl ⟨_, _, _, rfl, ?_⟩))
    rw [byte (by omega), byte (by omega), byte (by omega)]
    omega
  · refine .inr (.inr (.inr ⟨_, _, _, _, rfl, ?_⟩))
    rw [byte (by omega), byte (by omega), byte (by omega), byte (by omega)]
    omega

theorem encode_one {a : UInt8} (ascii : a.toNat < 0x80) :
    String.utf8EncodeChar (Char.ofNat a.toNat) = [a] := by
  have code : (Char.ofNat a.toNat).val.toNat = a.toNat :=
    toNat_ofNat (by unfold Nat.isValidChar; omega)
  simp only [String.utf8EncodeChar, code]
  rw [if_pos (by omega), byte_eq (b := a) rfl]

theorem encode_two {a b : UInt8} (first : 0xC2 ≤ a.toNat ∧ a.toNat ≤ 0xDF) (second : Tail b) :
    String.utf8EncodeChar (Char.ofNat ((a.toNat - 0xC0) * 64 + (b.toNat - 0x80))) = [a, b] := by
  unfold Tail at second
  have code := toNat_ofNat (n := (a.toNat - 0xC0) * 64 + (b.toNat - 0x80))
    (by unfold Nat.isValidChar; omega)
  simp only [String.utf8EncodeChar, code]
  rw [if_neg (by omega), if_pos (by omega), byte_eq (b := a) (by omega),
    byte_eq (b := b) (by omega)]

theorem encode_three {a b d : UInt8} (first : 0xE0 ≤ a.toNat ∧ a.toNat ≤ 0xEF)
    (second : Second a b) (third : Tail d) :
    String.utf8EncodeChar (Char.ofNat
      (((a.toNat - 0xE0) * 64 + (b.toNat - 0x80)) * 64 + (d.toNat - 0x80))) = [a, b, d] := by
  unfold Second Tail at *
  have code := toNat_ofNat
    (n := ((a.toNat - 0xE0) * 64 + (b.toNat - 0x80)) * 64 + (d.toNat - 0x80))
    (by unfold Nat.isValidChar; omega)
  simp only [String.utf8EncodeChar, code]
  rw [if_neg (by omega), if_neg (by omega), if_pos (by omega), byte_eq (b := a) (by omega),
    byte_eq (b := b) (by omega), byte_eq (b := d) (by omega)]

theorem encode_four {a b d e : UInt8} (first : 0xF0 ≤ a.toNat ∧ a.toNat ≤ 0xF4)
    (second : Second a b) (third : Tail d) (fourth : Tail e) :
    String.utf8EncodeChar (Char.ofNat
      ((((a.toNat - 0xF0) * 64 + (b.toNat - 0x80)) * 64 + (d.toNat - 0x80)) * 64
        + (e.toNat - 0x80))) = [a, b, d, e] := by
  unfold Second Tail at *
  have code := toNat_ofNat
    (n := (((a.toNat - 0xF0) * 64 + (b.toNat - 0x80)) * 64 + (d.toNat - 0x80)) * 64
      + (e.toNat - 0x80)) (by unfold Nat.isValidChar; omega)
  simp only [String.utf8EncodeChar, code]
  rw [if_neg (by omega), if_neg (by omega), if_neg (by omega), byte_eq (b := a) (by omega),
    byte_eq (b := b) (by omega), byte_eq (b := d) (by omega), byte_eq (b := e) (by omega)]

/-! ## Reading the bytes of one character -/

theorem decode_cons (b : UInt8) (rest : List UInt8) :
    decode (b :: rest) = match begin b.toNat with
      | .inl g => g :: decode rest
      | .inr p => decodeFrom (some p) rest := rfl

section Pending

variable {bits taken due low high : Nat} {b : UInt8} {rest : List UInt8}

theorem decodeFrom_last (inside : low ≤ b.toNat ∧ b.toNat ≤ high) :
    decodeFrom (some ⟨bits, taken, 1, low, high⟩) (b :: rest)
      = .char (Char.ofNat (bits * 64 + (b.toNat - 0x80))) :: decode rest := by
  simp only [decodeFrom, if_true]
  rw [if_pos inside]
  rfl

theorem decodeFrom_next (inside : low ≤ b.toNat ∧ b.toNat ≤ high) :
    decodeFrom (some ⟨bits, taken, due + 2, low, high⟩) (b :: rest) = decodeFrom
      (some ⟨bits * 64 + (b.toNat - 0x80), taken + 1, due + 1, 0x80, 0xBF⟩) rest := by
  simp only [decodeFrom]
  rw [if_pos inside, if_neg (by omega)]
  rfl

/-- Where no byte goes on with a character, the bytes taken are junk. -/
theorem decodeFrom_cut {p : Pending}
    (cut : ∀ b more, rest = b :: more → ¬ (p.low ≤ b.toNat ∧ b.toNat ≤ p.high)) :
    decodeFrom (some p) rest = .junk p.taken :: decode rest := by
  cases rest with
  | nil => rfl
  | cons b more =>
    simp only [decodeFrom]
    rw [if_neg (cut b more rfl)]
    rfl

end Pending

section First

variable {a : UInt8}

theorem begin_one (ascii : a.toNat < 0x80) : begin a.toNat = .inl (.char (Char.ofNat a.toNat)) :=
  if_pos ascii

theorem begin_two (first : 0xC2 ≤ a.toNat ∧ a.toNat ≤ 0xDF) :
    begin a.toNat = .inr ⟨a.toNat - 0xC0, 1, 1, 0x80, 0xBF⟩ := by
  unfold begin
  rw [if_neg (by omega), if_pos first]

theorem begin_three (first : 0xE0 ≤ a.toNat ∧ a.toNat ≤ 0xEF) :
    ∃ low high, begin a.toNat = .inr ⟨a.toNat - 0xE0, 1, 2, low, high⟩ ∧
      ∀ b : UInt8, low ≤ b.toNat ∧ b.toNat ≤ high ↔ Second a b := by
  refine ⟨if a.toNat = 0xE0 then 0xA0 else 0x80, if a.toNat = 0xED then 0x9F else 0xBF, ?_,
    fun b => ?_⟩
  · unfold begin
    rw [if_neg (by omega), if_neg (by omega), if_pos first]
  · unfold Second Tail
    split_ifs <;> omega

theorem begin_four (first : 0xF0 ≤ a.toNat ∧ a.toNat ≤ 0xF4) :
    ∃ low high, begin a.toNat = .inr ⟨a.toNat - 0xF0, 1, 3, low, high⟩ ∧
      ∀ b : UInt8, low ≤ b.toNat ∧ b.toNat ≤ high ↔ Second a b := by
  refine ⟨if a.toNat = 0xF0 then 0x90 else 0x80, if a.toNat = 0xF4 then 0x8F else 0xBF, ?_,
    fun b => ?_⟩
  · unfold begin
    rw [if_neg (by omega), if_neg (by omega), if_neg (by omega), if_pos first]
  · unfold Second Tail
    split_ifs <;> omega

end First

/-- The encoding of a character reads as the character. -/
theorem decode_encode (c : Char) (rest : List UInt8) :
    decode (String.utf8EncodeChar c ++ rest) = .char c :: decode rest := by
  have code : Char.ofNat c.toNat = c := c.ofNat_toNat
  rcases encode_cases c with ⟨a, spelt, first, same⟩ | ⟨a, b, spelt, first, second, same⟩ |
    ⟨a, b, d, spelt, first, second, third, same⟩ |
    ⟨a, b, d, e, spelt, first, second, third, fourth, same⟩
  · rw [spelt, List.singleton_append, decode_cons, begin_one first, ← same, code]
  · rw [spelt, List.cons_append, List.singleton_append, decode_cons, begin_two first]
    simp only
    rw [decodeFrom_last second, ← same, code]
  · obtain ⟨low, high, begun, bounds⟩ := begin_three first
    rw [spelt, List.cons_append, List.cons_append, List.singleton_append, decode_cons, begun]
    simp only
    rw [decodeFrom_next ((bounds b).2 second), decodeFrom_last third, ← same, code]
  · obtain ⟨low, high, begun, bounds⟩ := begin_four first
    rw [spelt, List.cons_append, List.cons_append, List.cons_append, List.singleton_append,
      decode_cons, begun]
    simp only
    rw [decodeFrom_next ((bounds b).2 second), decodeFrom_next third, decodeFrom_last fourth,
      ← same, code]

/-- The bytes have begun a character, and the next byte goes on with it if it is in the bounds. -/
structure Pending.After (p : Pending) (bytes : List UInt8) : Prop where
  taken : p.taken = bytes.length
  reads : ∀ rest, decode (bytes ++ rest) = decodeFrom (some p) rest
  goesOn : ∀ b : UInt8, p.low ≤ b.toNat ∧ b.toNat ≤ p.high → Begins (bytes ++ [b])

section After

variable {a b d : UInt8}

theorem begins_two (first : 0xC2 ≤ a.toNat ∧ a.toNat ≤ 0xDF) (second : Tail b) : Begins [a, b] :=
  ⟨_, [], by rw [encode_two first second, List.append_nil]⟩

theorem begins_three (first : 0xE0 ≤ a.toNat ∧ a.toNat ≤ 0xEF) (second : Second a b)
    (third : Tail d) : Begins [a, b, d] :=
  ⟨_, [], by rw [encode_three first second third, List.append_nil]⟩

theorem tail_least : Tail 0x80 := by
  unfold Tail
  decide

theorem begins_four (first : 0xF0 ≤ a.toNat ∧ a.toNat ≤ 0xF4) (second : Second a b)
    (third : Tail d) : Begins [a, b, d] :=
  ⟨_, [0x80], by rw [encode_four first second third tail_least]; rfl⟩

theorem Begins.of_append {bytes : List UInt8} (more : List UInt8) (h : Begins (bytes ++ more)) :
    Begins bytes :=
  h.imp fun _ whole => (List.prefix_append bytes more).trans whole

theorem Pending.after_first {p : Pending} (begun : begin a.toNat = .inr p) (one : p.taken = 1)
    (goesOn : ∀ b : UInt8, p.low ≤ b.toNat ∧ b.toNat ≤ p.high → Begins [a, b]) : p.After [a] :=
  ⟨one, fun rest => by rw [List.singleton_append, decode_cons, begun], goesOn⟩

theorem Pending.After.next {bits taken due low high : Nat} {bytes : List UInt8}
    (h : (Pending.mk bits taken (due + 2) low high).After bytes)
    (inside : low ≤ b.toNat ∧ b.toNat ≤ high) (goesOn : ∀ d, Tail d → Begins (bytes ++ [b, d])) :
    (Pending.mk (bits * 64 + (b.toNat - 0x80)) (taken + 1) (due + 1) 0x80 0xBF).After
      (bytes ++ [b]) where
  taken := by
    have before : taken = bytes.length := h.taken
    simp [before]
  reads rest := by
    rw [List.append_assoc, h.reads]
    exact decodeFrom_next inside
  goesOn d tail := by simpa using goesOn d tail

/-- Some but not all bytes of an encoding begin a character. -/
theorem after_of_prefix {bytes : List UInt8} {c : Char} (part : bytes <+: String.utf8EncodeChar c)
    (filled : bytes ≠ []) (short : bytes ≠ String.utf8EncodeChar c) :
    ∃ p : Pending, p.After bytes := by
  rw [← List.mem_inits] at part
  rcases encode_cases c with ⟨a, spelt, -⟩ | ⟨a, b, spelt, first, -⟩ |
    ⟨a, b, d, spelt, first, second, -⟩ | ⟨a, b, d, e, spelt, first, second, third, -⟩
  · rw [spelt] at part short
    simp [filled, short] at part
  · rw [spelt] at part short
    obtain rfl : bytes = [a] := by simpa [filled, short] using part
    exact ⟨_, Pending.after_first (begin_two first) rfl fun b inside => begins_two first inside⟩
  · rw [spelt] at part short
    obtain ⟨low, high, begun, bounds⟩ := begin_three first
    have one := Pending.after_first begun rfl fun b inside => Begins.of_append [0x80]
      (begins_three first ((bounds b).1 inside) tail_least)
    have parts : bytes = [a] ∨ bytes = [a, b] := by simpa [filled, short] using part
    rcases parts with rfl | rfl
    · exact ⟨_, one⟩
    · exact ⟨_, one.next ((bounds b).2 second) fun d tail => begins_three first second tail⟩
  · rw [spelt] at part short
    obtain ⟨low, high, begun, bounds⟩ := begin_four first
    have one := Pending.after_first begun rfl fun b inside => Begins.of_append [0x80]
      (begins_four first ((bounds b).1 inside) tail_least)
    have two := one.next ((bounds b).2 second) fun d tail => begins_four first second tail
    have parts : bytes = [a] ∨ bytes = [a, b] ∨ bytes = [a, b, d] := by
      simpa [filled, short] using part
    rcases parts with rfl | rfl | rfl
    · exact ⟨_, one⟩
    · exact ⟨_, two⟩
    · exact ⟨_, two.next third fun e tail =>
        ⟨_, [], by rw [encode_four first second third tail]; rfl⟩⟩

end After

/-- A byte that begins no character is junk. -/
theorem decode_stray {b : UInt8} (stray : ¬ Begins [b]) (rest : List UInt8) :
    decode (b :: rest) = .junk 1 :: decode rest := by
  have one : ¬ b.toNat < 0x80 := fun first =>
    stray ⟨_, [], by rw [encode_one first, List.append_nil]⟩
  have two : ¬ (0xC2 ≤ b.toNat ∧ b.toNat ≤ 0xDF) := fun first =>
    stray (Begins.of_append [0x80] (begins_two first tail_least))
  have three : ¬ (0xE0 ≤ b.toNat ∧ b.toNat ≤ 0xEF) := by
    intro first
    refine stray (Begins.of_append [if b.toNat = 0xED then 0x80 else 0xBF, 0x80]
      (begins_three first ?_ tail_least))
    unfold Second Tail
    split_ifs <;> simp <;> omega
  have four : ¬ (0xF0 ≤ b.toNat ∧ b.toNat ≤ 0xF4) := by
    intro first
    refine stray (Begins.of_append [if b.toNat = 0xF4 then 0x80 else 0xBF, 0x80]
      (begins_four first ?_ tail_least))
    unfold Second Tail
    split_ifs <;> simp <;> omega
  have begun : begin b.toNat = .inl (.junk 1) := by
    unfold begin
    rw [if_neg one, if_neg two, if_neg three, if_neg four]
  rw [decode_cons, begun]

/-! ## The law of bytes -/

/-- The glyphs that bytes must give, character by character: an encoding is its character; where
none stands, the longest beginning of one is junk, or else the byte that begins none. -/
inductive Yields : List UInt8 → List Glyph → Prop
  | nil : Yields [] []
  | char (c) {rest gs} : Yields rest gs → Yields (String.utf8EncodeChar c ++ rest) (.char c :: gs)
  | cut {bytes rest gs} : bytes ≠ [] → Begins bytes → (∀ c, bytes ≠ String.utf8EncodeChar c) →
    (∀ b more, rest = b :: more → ¬ Begins (bytes ++ [b])) → Yields rest gs →
    Yields (bytes ++ rest) (.junk bytes.length :: gs)
  | stray {b rest gs} : ¬ Begins [b] → Yields rest gs → Yields (b :: rest) (.junk 1 :: gs)

/-- What bytes must give is what is decoded. -/
theorem Yields.decode_eq {bytes : List UInt8} {gs : List Glyph} (h : Yields bytes gs) :
    decode bytes = gs := by
  induction h with
  | nil => rfl
  | char c _ ih => rw [decode_encode, ih]
  | @cut bytes rest gs filled begun short cut _ ih =>
    obtain ⟨c, part⟩ := begun
    obtain ⟨p, after⟩ := after_of_prefix part filled (short c)
    have ends : ∀ b more, rest = b :: more → ¬ (p.low ≤ b.toNat ∧ b.toNat ≤ p.high) :=
      fun b more next inside => cut b more next (after.goesOn b inside)
    rw [after.reads, decodeFrom_cut ends, after.taken, ih]
  | stray stray _ ih => rw [decode_stray stray, ih]

/-- Bytes that begin a character can be taken up to where no more of them do. -/
theorem exists_longest (bytes rest : List UInt8) (begun : Begins bytes) :
    ∃ more after, rest = more ++ after ∧ Begins (bytes ++ more) ∧
      ∀ b tail, after = b :: tail → ¬ Begins (bytes ++ more ++ [b]) := by
  induction rest generalizing bytes with
  | nil => exact ⟨[], [], rfl, by simpa using begun, fun b tail none => by cases none⟩
  | cons b rest ih =>
    by_cases longer : Begins (bytes ++ [b])
    · obtain ⟨more, after, same, reached, ends⟩ := ih (bytes ++ [b]) longer
      refine ⟨b :: more, after, by rw [same]; rfl, ?_, fun d tail next => ?_⟩
      · simpa using reached
      · simpa using ends d tail next
    · refine ⟨[], b :: rest, rfl, by simpa using begun, fun d tail next => ?_⟩
      obtain ⟨rfl, -⟩ := List.cons.inj next
      simpa using longer

/-- Bytes always give glyphs. -/
theorem exists_yields (bytes : List UInt8) : ∃ gs, Yields bytes gs := by
  induction size : bytes.length using Nat.strong_induction_on generalizing bytes with
  | _ n ih =>
    cases bytes with
    | nil => exact ⟨[], .nil⟩
    | cons b rest =>
      have shorter {front back : List UInt8} (filled : front ≠ [])
          (split : b :: rest = front ++ back) :
          ∃ gs, Yields back gs := by
        refine ih back.length ?_ back rfl
        have front := List.length_pos_iff.2 filled
        rw [← size, split, List.length_append]
        omega
      by_cases whole : ∃ c, String.utf8EncodeChar c <+: b :: rest
      · obtain ⟨c, back, split⟩ := whole
        obtain ⟨gs, reads⟩ := shorter String.utf8EncodeChar_ne_nil split.symm
        exact ⟨.char c :: gs, split ▸ .char c reads⟩
      · by_cases first : Begins [b]
        · obtain ⟨more, back, rfl, begun, ends⟩ := exists_longest [b] rest first
          obtain ⟨gs, reads⟩ := shorter (List.cons_ne_nil b more) rfl
          refine ⟨_, .cut (List.cons_ne_nil b more) begun (fun c same => ?_) ends reads⟩
          exact whole ⟨c, back, by rw [← same]; rfl⟩
        · obtain ⟨gs, reads⟩ := shorter (List.cons_ne_nil b []) rfl
          exact ⟨_, .stray first reads⟩

/-- What is decoded is what bytes must give, and nothing else. -/
theorem decode_iff (bytes : List UInt8) (gs : List Glyph) :
    decode bytes = gs ↔ Yields bytes gs := by
  refine ⟨fun same => ?_, Yields.decode_eq⟩
  obtain ⟨gs', reads⟩ := exists_yields bytes
  rw [← same, reads.decode_eq]
  exact reads

/-- A text that was encoded is read as it is. -/
theorem decode_utf8 (s : String) :
    decode (s.toList.flatMap String.utf8EncodeChar) = ofString s := by
  unfold ofString
  induction s.toList with
  | nil => rfl
  | cons c rest ih => rw [List.flatMap_cons, decode_encode, ih, List.map_cons]

end Permit.Text
