-- Reading JSON text into drafts, along an outline of what will be looked at.
import Permit.Json.Draft
import Permit.Json.Skip

namespace Permit.Json

open Text

/-- A draft and the text after it, unless the draft breaks off. -/
abbrev Reading := Draft × Option (List Glyph)

/-! ## Pieces -/

/-- A draft that is nothing but a fault. -/
def broken (f : Fault) : Reading := (.failed (.fault f), none)

/-- A scanned piece as a draft. -/
def Scanned.toReading {α : Type} (toDraft : α → Draft) : Scanned α → Reading
  | .ok (a, rest) => (toDraft a, some rest)
  | .error f => broken f

/-- A word as a draft. -/
def readWord (word : String) (d : Draft) (s : List Glyph) : Reading :=
  match scanWord word.toList s with
  | .ok rest => (d, some rest)
  | .error f => broken f

/-- A value that is no array and no object. -/
def readScalar : List Glyph → Reading
  | [] => broken (faultAt .unfinishedValue [])
  | .char 'n' :: rest => readWord "ull" .null rest
  | .char 't' :: rest => readWord "rue" (.bool true) rest
  | .char 'f' :: rest => readWord "alse" (.bool false) rest
  | .char '"' :: rest => (scanString rest).toReading Draft.str
  | .char '-' :: rest => (scanNumber true rest).toReading Draft.num
  | g :: rest =>
    if (digit? g).isSome then (scanNumber false (g :: rest)).toReading Draft.num
    else broken (faultAt .value (g :: rest))

/-! ## Arrays -/

/-- How the reading of a list went on after its last item: it was closed, it breaks here,
or its last item breaks off. -/
inductive Ending where
  | closed (rest : List Glyph)
  | breaks (f : Failure)
  | lost

/-- The failure that stands after the last item. -/
def Ending.failure? : Ending → Option Failure
  | .breaks f => some f
  | _ => none

/-- The text after a closed list. -/
def Ending.rest? : Ending → Option (List Glyph)
  | .closed rest => some rest
  | _ => none

/-- A list that breaks at a fault. -/
def Ending.at (f : Fault) : Ending := .breaks (.fault f)

/-- The end of an array that must hold no more items. -/
def endOfArray (s : List Glyph) : Ending :=
  match skipSpace s with
  | [] => .at (faultAt .unfinishedList [])
  | .char ']' :: rest => .closed rest
  | .char ',' :: rest =>
    match skipSpace rest with
    | .char ']' :: rest => .at (faultAt .noTrailingComma (.char ']' :: rest))
    | s => .at (faultAt .nothingAfter s)
  | s => .at (faultAt .nothingAfter s)

/-- Where the next item of an array starts, if there is one; before the first no comma is
due. -/
def startOfItem (first : Bool) (s : List Glyph) : Except Ending (List Glyph) :=
  match skipSpace s with
  | [] => .error (.at (faultAt .unfinishedList []))
  | .char ']' :: rest => .error (.closed rest)
  | g :: rest =>
    if first then .ok (g :: rest)
    else if g = .char ',' then
      match skipSpace rest with
      | [] => .error (.at (faultAt .unfinishedValue []))
      | .char ']' :: rest => .error (.at (faultAt .noTrailingComma (.char ']' :: rest)))
      | s => .ok s
    else .error (.at (faultAt .listSeparator (g :: rest)))

/-- The items of an array from the `i`th on. `item i` reads the `i`th; where it is `none`
the array must end. -/
def readItems (item : Nat → Option (List Glyph → Reading)) :
    Nat → Nat → List Glyph → List Draft × Ending
  | 0, _, _ => ([], .lost)
  | fuel + 1, i, s =>
    match item i with
    | none => ([], endOfArray s)
    | some read =>
      match startOfItem (i == 0) s with
      | .error ending => ([], ending)
      | .ok s =>
        match read s with
        | (d, none) => ([d], .lost)
        | (d, some rest) =>
          let (ds, ending) := readItems item fuel (i + 1) rest
          (d :: ds, ending)

/-- An array after its bracket. -/
def readArray (item : Nat → Option (List Glyph → Reading)) (s : List Glyph) : Reading :=
  let (ds, ending) := readItems item (s.length + 1) 0 s
  (.arr ds ending.failure?, ending.rest?)

/-! ## Objects -/

/-- Where the next name of an object starts, after its quote, if there is one. -/
def startOfMember (first : Bool) (s : List Glyph) : Except Ending (List Glyph) :=
  match skipSpace s with
  | [] => .error (.at (faultAt .unfinishedObject []))
  | .char '\x7d' :: rest => .error (.closed rest)
  | g :: rest =>
    let name (s : List Glyph) : Except Ending (List Glyph) :=
      match s with
      | [] => .error (.at (faultAt .unfinishedValue []))
      | .char '"' :: rest => .ok rest
      | .char '\x7d' :: rest => .error (.at (faultAt .noTrailingComma (.char '\x7d' :: rest)))
      | s => .error (.at (faultAt .stringKey s))
    if first then name (g :: rest)
    else if g = .char ',' then name (skipSpace rest)
    else .error (.at (faultAt .objectSeparator (g :: rest)))

/-- The value of a member from its colon on. -/
def readAfterColon (read : List Glyph → Reading) (s : List Glyph) : Reading :=
  match skipSpace s with
  | [] => broken (faultAt .unfinishedObject [])
  | .char ':' :: rest => read rest
  | s => broken (faultAt .colon s)

/-- The members of an object. `value name` reads the value of the member of that name. -/
def readMembers (value : String → List Glyph → Reading) :
    Nat → Bool → List Glyph → List (String × Draft) × Ending
  | 0, _, _ => ([], .lost)
  | fuel + 1, first, s =>
    match startOfMember first s with
    | .error ending => ([], ending)
    | .ok s =>
      match scanString s with
      | .error f => ([], .at f)
      | .ok (name, rest) =>
        match readAfterColon (value name) rest with
        | (d, none) => ([(name, d)], .lost)
        | (d, some rest) =>
          let (ds, ending) := readMembers value fuel false rest
          ((name, d) :: ds, ending)

/-- An object after its brace. -/
def readObject (value : String → List Glyph → Reading) (s : List Glyph) : Reading :=
  let (ds, ending) := readMembers value (s.length + 1) true s
  (.obj ds ending.failure?, ending.rest?)

/-- A value that nobody looks at. -/
def readSkipped (s : List Glyph) : Reading :=
  match skipValue s with
  | .ok rest => (.null, some rest)
  | .error f => broken f

/-! ## Variants -/

/-- The end of an object that names a variant. -/
def endOfVariant (s : List Glyph) : Ending :=
  match skipSpace s with
  | [] => .at (faultHere .unfinishedObject [])
  | .char '\x7d' :: rest => .closed rest
  | s => .at (faultHere .value s)

/-- An object that names a variant, after its brace. The name is a string, and it is looked
at as it is read. -/
def readVariant (payload : String → List Glyph → Reading) (s : List Glyph) : Reading :=
  match skipSpace s with
  | .char '"' :: rest =>
    match scanString rest with
    | .error f => broken f
    | .ok (name, rest) =>
      match readAfterColon (payload name) rest with
      | (d, none) => (.obj [(name, d)] none, none)
      | (d, some rest) =>
        let ending := endOfVariant rest
        (.obj [(name, d)] ending.failure?, ending.rest?)
  | [] => broken (faultAt .unfinishedValue [])
  | .char '\x7d' :: rest => broken (faultAt .value (.char '\x7d' :: rest))
  | s => broken (faultAt .stringKey s)

/-! ## Values -/

/-- A value along an outline. Arrays and objects nest at most `budget` deep. -/
def readValue : Nat → Outline → List Glyph → Reading
  | budget, outline, s =>
    let s := skipSpace s
    match budget, outline, s with
    | 0, _, .char '[' :: _ => broken (faultAt .nesting s)
    | 0, _, .char '\x7b' :: _ => broken (faultAt .nesting s)
    | budget + 1, .tuple items, .char '[' :: rest =>
      readArray (fun i => items[i]?.map (readValue budget)) rest
    | budget + 1, .record fields, .char '[' :: rest =>
      readArray (fun i => fields[i]?.map fun field => readValue budget field.2) rest
    | budget + 1, .list item, .char '[' :: rest =>
      readArray (fun _ => some (readValue budget item)) rest
    | budget + 1, .record fields, .char '\x7b' :: rest =>
      readObject (fun name => ((Outline.find? name fields).map (readValue budget)).getD
        readSkipped) rest
    | budget + 1, .variant payloads, .char '\x7b' :: rest =>
      readVariant (fun name => ((Outline.find? name payloads).map (readValue budget)).getD
        readSkipped) rest
    | _, .variant _, .char '"' :: rest => (scanString rest).toReading Draft.str
    | _, .variant _, [] => broken (faultAt .unfinishedValue [])
    | _, .variant _, s => broken (faultAt .value s)
    | budget + 1, _, .char '[' :: rest =>
      readArray (fun _ => some (readValue budget .whole)) rest
    | budget + 1, _, .char '\x7b' :: rest =>
      readObject (fun _ => readValue budget .whole) rest
    | _, _, s => readScalar s

/-- How many arrays and objects may be open at once. -/
def maxNesting : Nat := 127

/-- A whole text along an outline, and the fault after its value if more than blanks
stands there. -/
def readText (outline : Outline) (text : List Glyph) : Draft × Option Fault :=
  match readValue maxNesting outline text with
  | (d, none) => (d, none)
  | (d, some rest) =>
    match skipSpace rest with
    | [] => (d, none)
    | s => (d, some (faultAt .nothingAfter s))

end Permit.Json
