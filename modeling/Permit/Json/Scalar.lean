-- Reading the words, strings and numbers of JSON text.
import Permit.Json.Failure

namespace Permit.Json

open Text

/-! ## Places -/

/-- A fault before the next byte. -/
def faultHere (broken : Requirement) (s : List Glyph) : Fault := ⟨broken, byteCount s⟩

/-- A fault at the next byte, or at the end of the text. -/
def faultAt (broken : Requirement) (s : List Glyph) : Fault := ⟨broken, byteCount s - 1⟩

/-- A result with the text after it, or a fault. -/
abbrev Scanned (α : Type) := Except Fault (α × List Glyph)

/-! ## Blanks and words -/

/-- What is left after the blanks of JSON. -/
def skipSpace : List Glyph → List Glyph
  | .char c :: rest =>
    if c = ' ' ∨ c = '\n' ∨ c = '\t' ∨ c = '\r' then skipSpace rest else .char c :: rest
  | s => s

/-- What is left after the letters of a word. -/
def scanWord : List Char → List Glyph → Except Fault (List Glyph)
  | [], s => .ok s
  | _ :: _, [] => .error (faultHere .unfinishedValue [])
  | w :: word, g :: rest =>
    if g = .char w then scanWord word rest else .error (faultAt .word (g :: rest))

/-! ## Strings -/

/-- The value of a hexadecimal digit in either case. -/
def hexDigit? : Glyph → Option Nat
  | .char c =>
    if '0' ≤ c ∧ c ≤ '9' then some (c.toNat - '0'.toNat)
    else if 'a' ≤ c ∧ c ≤ 'f' then some (c.toNat - 'a'.toNat + 10)
    else if 'A' ≤ c ∧ c ≤ 'F' then some (c.toNat - 'A'.toNat + 10)
    else none
  | .junk _ => none

/-- The number of four hexadecimal digits; with fewer than four bytes left, the string is
unfinished. -/
def scanHex (s : List Glyph) : Scanned Nat :=
  if byteCount s < 4 then .error ⟨.unfinishedString, 0⟩
  else
    let bad : Scanned Nat := .error ⟨.escape, byteCount s - 4⟩
    match s with
    | a :: b :: c :: d :: rest =>
      match hexDigit? a, hexDigit? b, hexDigit? c, hexDigit? d with
      | some a, some b, some c, some d => .ok (((a * 16 + b) * 16 + c) * 16 + d, rest)
      | _, _, _, _ => bad
    | _ => bad

/-- The text after one more character, which must be `c`. -/
def scanSecond (c : Char) : List Glyph → Except Fault (List Glyph)
  | [] => .error ⟨.unfinishedString, 0⟩
  | g :: rest => if g = .char c then .ok rest else .error (faultAt .secondSurrogate (g :: rest))

/-- The character after `\u`: four digits, or two halves of a surrogate pair. -/
def scanUnicode (s : List Glyph) : Scanned Char :=
  match scanHex s with
  | .error f => .error f
  | .ok (code, rest) =>
    if 0xDC00 ≤ code ∧ code < 0xE000 then .error (faultHere .surrogatePair rest)
    else if 0xD800 ≤ code ∧ code < 0xDC00 then
      match (scanSecond '\\' rest).bind (scanSecond 'u') with
      | .error f => .error f
      | .ok rest =>
        match scanHex rest with
        | .error f => .error f
        | .ok (low, rest) =>
          if 0xDC00 ≤ low ∧ low < 0xE000 then
            .ok (Char.ofNat (0x10000 + (code - 0xD800) * 0x400 + (low - 0xDC00)), rest)
          else .error (faultHere .surrogatePair rest)
    else .ok (Char.ofNat code, rest)

/-- The character after a backslash. -/
def scanEscape : List Glyph → Scanned Char
  | [] => .error ⟨.unfinishedString, 0⟩
  | .char '"' :: rest => .ok ('"', rest)
  | .char '\\' :: rest => .ok ('\\', rest)
  | .char '/' :: rest => .ok ('/', rest)
  | .char 'b' :: rest => .ok ('\x08', rest)
  | .char 'f' :: rest => .ok ('\x0c', rest)
  | .char 'n' :: rest => .ok ('\n', rest)
  | .char 'r' :: rest => .ok ('\r', rest)
  | .char 't' :: rest => .ok ('\t', rest)
  | .char 'u' :: rest => scanUnicode rest
  | s => .error (faultAt .escape s)

/-- A character in front of more. -/
def Scanned.cons (c : Char) : Scanned (List Char) → Scanned (List Char)
  | .ok (cs, rest) => .ok (c :: cs, rest)
  | .error f => .error f

/-- The characters up to the closing quote. `spoilt` counts the bytes that the string
stands for from its first junk on: the fault of junk shows at the quote, and its place is
as many bytes before it. -/
def scanStringBody : Nat → Option Nat → List Glyph → Scanned (List Char)
  | 0, _, s => .error (faultHere .unfinishedString s)
  | _ + 1, _, [] => .error ⟨.unfinishedString, 0⟩
  | fuel + 1, spoilt, .junk n :: rest => scanStringBody fuel (some (spoilt.getD 0 + n)) rest
  | fuel + 1, spoilt, .char c :: rest =>
    if c = '"' then
      match spoilt with
      | none => .ok ([], rest)
      | some n => .error ⟨.unicode, n + byteCount rest⟩
    else if c = '\\' then
      match scanEscape rest with
      | .error f => .error f
      | .ok (c, rest) => (scanStringBody fuel (spoilt.map (· + c.utf8Size)) rest).cons c
    else if c.toNat < 0x20 then .error (faultAt .noControlCharacter (.char c :: rest))
    else (scanStringBody fuel (spoilt.map (· + c.utf8Size)) rest).cons c

/-- A string after its opening quote. -/
def scanString (s : List Glyph) : Scanned String :=
  match scanStringBody (s.length + 1) none s with
  | .error f => .error f
  | .ok (cs, rest) => .ok (String.ofList cs, rest)

/-! ## Numbers -/

/-- The value of a decimal digit. -/
def digit? : Glyph → Option Nat
  | .char c => if c.isDigit then some (c.toNat - '0'.toNat) else none
  | .junk _ => none

/-- The values of the digits at the start of a text, and what is left after them. -/
def takeDigits : List Glyph → List Nat × List Glyph
  | [] => ([], [])
  | g :: rest =>
    match digit? g with
    | none => ([], g :: rest)
    | some d =>
      let (ds, after) := takeDigits rest
      (d :: ds, after)

/-- Whether an exponent follows. -/
def startsExponent : List Glyph → Bool
  | .char c :: _ => c == 'e' || c == 'E'
  | _ => false

/-- `f` divided by `10 ^ 308` as long as the exponent is below -308, at most `fuel` times,
and the exponent that is left. -/
def lowerToRange : Nat → Binary64 → Int → Binary64 × Int
  | 0, f, e => (f, e)
  | fuel + 1, f, e =>
    if e < -308 ∧ f.m ≠ 0 then
      let f := ((Binary64.ofDecimal false 1 308).bind f.div).getD default
      lowerToRange fuel f (e + 308)
    else (f, e)

/-- The float of a significand and a power of ten: the significand is rounded, then
multiplied or divided by one power of ten that is itself rounded, and rounded again. A
power below `10 ^ -308` is split; after three parts of it nothing but zero is left. -/
def floatOfParts (neg : Bool) (significand : Nat) (exponent : Int) (rest : List Glyph) :
    Scanned Number :=
  let outOfRange : Scanned Number := .error (faultHere .numberRange rest)
  match Binary64.ofQuotient false significand 1 with
  | none => outOfRange
  | some f =>
    if 0 ≤ exponent then
      if f.m = 0 then .ok (.float (f.withSign neg), rest)
      else if 308 < exponent then outOfRange
      else
        match (Binary64.ofDecimal false 1 exponent).bind f.mul with
        | none => outOfRange
        | some f => .ok (.float (f.withSign neg), rest)
    else
      let (f, exponent) := lowerToRange 3 f exponent
      if f.m = 0 then .ok (.float (f.withSign neg), rest)
      else
        let f := ((Binary64.ofDecimal false 1 (-exponent)).bind f.div).getD default
        .ok (.float (f.withSign neg), rest)

/-- The value of exponent digits, or what is left where it passes 31 bits. -/
def exponentValue (value : Nat) : List Nat → List Glyph → Except (List Glyph) Nat
  | [], _ => .ok value
  | d :: ds, s =>
    if 0x80000000 ≤ value * 10 + d then .error (s.drop 1)
    else exponentValue (value * 10 + d) ds (s.drop 1)

/-- A number from its exponent mark on. An exponent past 31 bits is too large, or leaves
nothing but zero. -/
def scanExponent (neg : Bool) (significand : Nat) (exponent : Int) (s : List Glyph) :
    Scanned Number :=
  let s := s.drop 1
  let (below, s) := match s with
    | .char '+' :: rest => (false, rest)
    | .char '-' :: rest => (true, rest)
    | s => (false, s)
  match takeDigits s with
  | ([], []) => .error (faultHere .unfinishedValue [])
  | ([], g :: rest) => .error (faultAt .number (g :: rest))
  | (ds, rest) =>
    match exponentValue 0 ds s with
    | .ok e => floatOfParts neg significand (if below then exponent - e else exponent + e) rest
    | .error after =>
      if significand ≠ 0 ∧ !below then .error (faultHere .numberRange after)
      else .ok (.float (Binary64.zero neg), rest)

/-- A significand of 64 bits with further digits as long as they fit, and those that do
not. -/
def extend (significand : Nat) : List Nat → Nat × List Nat
  | [] => (significand, [])
  | d :: ds =>
    if 0x10000000000000000 ≤ significand * 10 + d then (significand, d :: ds)
    else extend (significand * 10 + d) ds

/-- A number from its point on. Digits that the significand cannot hold are dropped. -/
def scanFraction (neg : Bool) (significand : Nat) (exponent : Int) (s : List Glyph) :
    Scanned Number :=
  match takeDigits (s.drop 1) with
  | ([], []) => .error (faultHere .unfinishedValue [])
  | ([], g :: rest) => .error (faultAt .number (g :: rest))
  | (ds, rest) =>
    let (significand, dropped) := extend significand ds
    let exponent := exponent - (ds.length - dropped.length)
    if startsExponent rest then scanExponent neg significand exponent rest
    else floatOfParts neg significand exponent rest

/-- A number after its first digits. -/
def scanAfterDigits (neg : Bool) (ds : List Nat) (rest : List Glyph) : Scanned Number :=
  let (significand, dropped) := extend 0 ds
  let exponent : Int := dropped.length
  match rest with
  | .char '.' :: _ => scanFraction neg significand exponent rest
  | _ =>
    if startsExponent rest then scanExponent neg significand exponent rest
    else if dropped ≠ [] then floatOfParts neg significand exponent rest
    else
      let whole : Int := if neg then -significand else significand
      match (if neg ∧ significand = 0 then none else Number.int? whole) with
      | some n => .ok (n, rest)
      | none => floatOfParts neg significand 0 rest

/-- A number after its sign. A leading zero stands alone. -/
def scanNumber (neg : Bool) (s : List Glyph) : Scanned Number :=
  match takeDigits s with
  | ([], []) => .error (faultHere .unfinishedValue [])
  | ([], g :: rest) => .error (faultAt .number (g :: rest))
  | (0 :: _ :: _, _) => .error (faultAt .number (s.drop 1))
  | (ds, rest) => scanAfterDigits neg ds rest

end Permit.Json
