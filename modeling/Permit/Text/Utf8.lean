-- Text that arrives as bytes: UTF-8 is decoded character by character, and bytes that
-- are no character stay in their place as junk.

namespace Permit.Text

/-- A character, or bytes that are none. -/
inductive Glyph where
  | char (c : Char)
  | junk (size : Nat)
deriving DecidableEq, Repr

namespace Glyph

/-- The number of bytes. -/
def size : Glyph → Nat
  | .char c => c.utf8Size
  | .junk n => n

/-- The character, with the replacement character for junk. -/
def toChar : Glyph → Char
  | .char c => c
  | .junk _ => '\ufffd'

end Glyph

/-- The number of bytes of a text. -/
def byteCount : List Glyph → Nat
  | [] => 0
  | g :: rest => g.size + byteCount rest

/-- The glyphs of a string. -/
def ofString (s : String) : List Glyph := s.toList.map .char

/-- A text as a string, with the replacement character for junk. -/
def toStringLossy (text : List Glyph) : String := String.ofList (text.map Glyph.toChar)

/-! ## Decoding -/

/-- A character begun: its bits so far, the bytes taken and still due, and the bounds of
the next byte. -/
structure Pending where
  bits : Nat
  taken : Nat
  due : Nat
  low : Nat
  high : Nat

/-- What the first byte of a character starts: a whole character, a character with more
bytes due, or junk. The bounds of the second byte shut out overlong forms, surrogates and
codes past the last. -/
def begin (b : Nat) : Glyph ⊕ Pending :=
  if b < 0x80 then .inl (.char (Char.ofNat b))
  else if 0xC2 ≤ b ∧ b ≤ 0xDF then .inr ⟨b - 0xC0, 1, 1, 0x80, 0xBF⟩
  else if 0xE0 ≤ b ∧ b ≤ 0xEF then
    .inr ⟨b - 0xE0, 1, 2, if b = 0xE0 then 0xA0 else 0x80, if b = 0xED then 0x9F else 0xBF⟩
  else if 0xF0 ≤ b ∧ b ≤ 0xF4 then
    .inr ⟨b - 0xF0, 1, 3, if b = 0xF0 then 0x90 else 0x80, if b = 0xF4 then 0x8F else 0xBF⟩
  else .inl (.junk 1)

/-- The glyphs of bytes, after a character begun. Where the next byte does not continue
it, the bytes taken are junk and that byte begins anew. -/
def decodeFrom (pending : Option Pending) : List UInt8 → List Glyph
  | [] =>
    match pending with
    | none => []
    | some p => [.junk p.taken]
  | byte :: rest =>
    let b := byte.toNat
    let fresh : List Glyph :=
      match begin b with
      | .inl g => g :: decodeFrom none rest
      | .inr p => decodeFrom (some p) rest
    match pending with
    | none => fresh
    | some p =>
      if p.low ≤ b ∧ b ≤ p.high then
        let bits := p.bits * 64 + (b - 0x80)
        if p.due = 1 then .char (Char.ofNat bits) :: decodeFrom none rest
        else decodeFrom (some ⟨bits, p.taken + 1, p.due - 1, 0x80, 0xBF⟩) rest
      else .junk p.taken :: fresh

/-- The glyphs of bytes. -/
def decode (bytes : List UInt8) : List Glyph := decodeFrom none bytes

end Permit.Text
