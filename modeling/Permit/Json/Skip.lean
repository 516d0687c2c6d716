-- Passing over a value that nobody looks at. Only its outline is checked: no limit on
-- nesting, on the size of numbers or on what escapes stand for.
import Permit.Json.Scalar

namespace Permit.Json

open Text

/-! ## Scalars -/

/-- What is left after a backslash and what belongs to it. -/
def skipEscape : List Glyph → Except Fault (List Glyph)
  | [] => .error ⟨.unfinishedString, 0⟩
  | .char 'u' :: rest => (scanHex rest).map Prod.snd
  | .char c :: rest =>
    if "\"\\/bfnrt".contains c then .ok rest else .error (faultAt .escape (.char c :: rest))
  | s => .error (faultAt .escape s)

/-- What is left after a string whose opening quote is read. -/
def skipStringBody : Nat → List Glyph → Except Fault (List Glyph)
  | 0, s => .error (faultHere .unfinishedString s)
  | _ + 1, [] => .error ⟨.unfinishedString, 0⟩
  | fuel + 1, .junk _ :: rest => skipStringBody fuel rest
  | fuel + 1, .char c :: rest =>
    if c = '"' then .ok rest
    else if c = '\\' then
      match skipEscape rest with
      | .error f => .error f
      | .ok rest => skipStringBody fuel rest
    else if c.toNat < 0x20 then .error (faultHere .noControlCharacter (.char c :: rest))
    else skipStringBody fuel rest

/-- What is left after a string whose opening quote is read. -/
def skipString (s : List Glyph) : Except Fault (List Glyph) :=
  skipStringBody (s.length + 1) s

/-- What is left after an exponent, from its mark on. -/
def skipExponent (s : List Glyph) : Except Fault (List Glyph) :=
  let s := match s.drop 1 with
    | .char '+' :: rest => rest
    | .char '-' :: rest => rest
    | s => s
  match takeDigits s with
  | ([], _) => .error (faultAt .number s)
  | (_, rest) => .ok rest

/-- What is left after a number, from its first digit on. -/
def skipNumber (s : List Glyph) : Except Fault (List Glyph) :=
  let afterFraction (s : List Glyph) : Except Fault (List Glyph) :=
    if startsExponent s then skipExponent s else .ok s
  match takeDigits s with
  | ([], _) => .error (faultAt .number s)
  | (0 :: _ :: _, _) => .error (faultAt .number (s.drop 1))
  | (_, .char '.' :: rest) =>
    match takeDigits rest with
    | ([], _) => .error (faultAt .number rest)
    | (_, rest) => afterFraction rest
  | (_, rest) => afterFraction rest

/-! ## Values -/

/-- What stands around the place of reading, from the inside out. -/
inductive Frame where
  | list
  | object
deriving DecidableEq

/-- How the frame ends. -/
def Frame.close : Frame → Char
  | .list => ']'
  | .object => '\x7d'

/-- What is missing where the text ends inside the frame. -/
def Frame.unfinished : Frame → Requirement
  | .list => .unfinishedList
  | .object => .unfinishedObject

/-- What is missing between two parts of the frame. -/
def Frame.separator : Frame → Requirement
  | .list => .listSeparator
  | .object => .objectSeparator

/-- What is left after a name and a colon. -/
def skipKey (s : List Glyph) : Except Fault (List Glyph) :=
  match skipSpace s with
  | [] => .error (faultAt .unfinishedObject [])
  | .char '"' :: rest =>
    match skipString rest with
    | .error f => .error f
    | .ok rest =>
      match skipSpace rest with
      | [] => .error (faultAt .unfinishedObject [])
      | .char ':' :: rest => .ok rest
      | s => .error (faultAt .colon s)
  | s => .error (faultAt .stringKey s)

/-- What is left where the next value starts, with the frames around it: closes frames
that end, and passes the comma and the name in front of the value. `opened` right after
an opening bracket, where no comma is due. With no frame left nothing is due. -/
def skipToValue : Nat → Bool → List Frame → List Glyph →
    Except Fault (List Frame × List Glyph)
  | 0, _, frames, s => .ok (frames, s)
  | _ + 1, _, [], s => .ok ([], s)
  | fuel + 1, opened, frame :: outer, s =>
    let enter (s : List Glyph) : Except Fault (List Frame × List Glyph) :=
      match frame with
      | .list => .ok (.list :: outer, s)
      | .object => (skipKey s).map fun s => (.object :: outer, s)
    match skipSpace s with
    | [] => .error (faultAt frame.unfinished [])
    | g :: rest =>
      if g = .char frame.close then skipToValue fuel false outer rest
      else if opened then enter (g :: rest)
      else if g = .char ',' then enter rest
      else .error (faultAt frame.separator (g :: rest))

/-- What is left after the values that the frames still need, the next of which stands
here. -/
def skipValues : Nat → List Frame → List Glyph → Except Fault (List Glyph)
  | 0, _, s => .ok s
  | fuel + 1, frames, s =>
    let continueWith (opened : Bool) (frames : List Frame) (s : List Glyph) :
        Except Fault (List Glyph) :=
      match skipToValue (s.length + 1) opened frames s with
      | .error f => .error f
      | .ok ([], s) => .ok s
      | .ok (frames, s) => skipValues fuel frames s
    let afterScalar (r : Except Fault (List Glyph)) : Except Fault (List Glyph) :=
      match r with
      | .error f => .error f
      | .ok s => continueWith false frames s
    match skipSpace s with
    | [] => .error (faultAt .unfinishedValue [])
    | .char 'n' :: rest => afterScalar (scanWord "ull".toList rest)
    | .char 't' :: rest => afterScalar (scanWord "rue".toList rest)
    | .char 'f' :: rest => afterScalar (scanWord "alse".toList rest)
    | .char '"' :: rest => afterScalar (skipString rest)
    | .char '-' :: rest => afterScalar (skipNumber rest)
    | .char '[' :: rest => continueWith true (.list :: frames) rest
    | .char '\x7b' :: rest => continueWith true (.object :: frames) rest
    | g :: rest =>
      if (digit? g).isSome then afterScalar (skipNumber (g :: rest))
      else .error (faultAt .value (g :: rest))

/-- What is left after a value. -/
def skipValue (s : List Glyph) : Except Fault (List Glyph) := skipValues (s.length + 1) [] s

end Permit.Json
