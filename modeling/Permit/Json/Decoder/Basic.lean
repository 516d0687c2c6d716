-- Decoders: from drafts to data. A decoder says beforehand which outline it will look
-- at, and looks at a draft from left to right, so the first failure it gives is the
-- first in the text.
import Permit.Json.Canonical
import Permit.Json.Reader

namespace Permit.Json

/-- Where a draft comes from: read along the decoder's own outline, a value in memory, or
a value that was set aside to be looked at more than once. -/
inductive Origin where
  | text
  | value
  | buffer
deriving DecidableEq

/-- Turns a draft into an `α`. -/
structure Decoder (α : Type) where
  outline : Outline
  decode : Origin → Draft → Except Failure α

namespace Decoder

variable {α β : Type}

/-! ## Running a decoder -/

/-- Reads a text; a failure inside its value comes before what stands after it. -/
def ofText (d : Decoder α) (text : List Text.Glyph) : Except Failure α :=
  let (draft, after) := readText d.outline text
  match d.decode .text draft with
  | .error f => .error f
  | .ok a => match after with
    | none => .ok a
    | some f => .error (.fault f)

/-- Decodes a value. -/
def ofValue (d : Decoder α) (v : Value) : Except Failure α := d.decode .value v.toDraft

/-- Decodes a value that was set aside. -/
def ofBuffer? (d : Decoder α) (v : Value) : Option α := (d.decode .buffer v.toDraft).toOption

/-! ## Failures -/

/-- A mismatch as the outcome. -/
def mismatch (m : Mismatch) : Except Failure α := .error (.mismatch m)

/-- A draft of another type than the one wanted, unless it has not even a type. -/
def wrongType (wanted : String) (draft : Draft) : Except Failure α :=
  match draft.found? with
  | .ok found => mismatch (.wrongType found wanted)
  | .error f => .error f

/-- The outcome, if the list ends where it should. -/
def unlessBroken (broken : Option Failure) (a : α) : Except Failure α :=
  match broken with
  | none => .ok a
  | some f => .error f

/-! ## Changing the result -/

/-- Changes what was decoded. -/
def map (f : α → β) (d : Decoder α) : Decoder β :=
  ⟨d.outline, fun origin draft => (d.decode origin draft).map f⟩

/-- Changes what was decoded, or rejects it. -/
def tryMap (f : α → Except Mismatch β) (d : Decoder α) : Decoder β :=
  ⟨d.outline, fun origin draft =>
    match d.decode origin draft with
    | .error e => .error e
    | .ok a => (f a).mapError Failure.mismatch⟩

/-! ## Scalars -/

/-- Any value, in canonical form. -/
def whole : Decoder Value := ⟨.whole, fun _ draft => draft.settle.map Value.normalize⟩

def string : Decoder String :=
  ⟨.whole, fun _ draft => match draft with
    | .str s => .ok s
    | draft => wrongType "a string" draft⟩

def bool : Decoder Bool :=
  ⟨.whole, fun _ draft => match draft with
    | .bool b => .ok b
    | draft => wrongType "a boolean" draft⟩

/-- A whole number inside bounds. -/
def integer (wanted : String) (low high : Int) : Decoder Int :=
  ⟨.whole, fun _ draft => match draft with
    | .num (.int i fits) =>
      if low ≤ i ∧ i ≤ high then .ok i
      else mismatch (.wrongValue (.number (.int i fits)) wanted)
    | draft => wrongType wanted draft⟩

def int64 : Decoder Int64 :=
  (integer "i64" (-0x8000000000000000) 0x7fffffffffffffff).map Int64.ofInt

def uint8 : Decoder UInt8 := (integer "u8" 0 255).map fun i => UInt8.ofNat i.toNat

/-- A number, rounded to the nearest float. -/
def float : Decoder Binary64 :=
  ⟨.whole, fun _ draft => match draft with
    | .num (.float x) => .ok x
    | .num (.int i _) => .ok ((Binary64.ofQuotient (i < 0) i.natAbs 1).getD default)
    | draft => wrongType "f64" draft⟩

/-- Nothing. -/
def unit : Decoder Unit :=
  ⟨.whole, fun _ draft => match draft with
    | .null => .ok ()
    | draft => wrongType "unit" draft⟩

/-- Nothing or something. -/
def option (d : Decoder α) : Decoder (Option α) :=
  ⟨d.outline, fun origin draft => match draft with
    | .null => .ok none
    | draft => (d.decode origin draft).map some⟩

/-! ## Lists and tuples -/

/-- All drafts of a list, up to the first that fails. -/
def decodeAll (f : Draft → Except Failure α) : List Draft → Except Failure (List α)
  | [] => .ok []
  | x :: rest =>
    match f x with
    | .error e => .error e
    | .ok a => (decodeAll f rest).map (a :: ·)

/-- An array of like items. -/
def list (d : Decoder α) : Decoder (List α) :=
  ⟨.list d.outline, fun origin draft => match draft with
    | .arr items broken =>
      match decodeAll (d.decode origin) items with
      | .error e => .error e
      | .ok as => unlessBroken broken as
    | draft => wrongType "a sequence" draft⟩

/-- How many items are meant. -/
def countOf (one many : String) (n : Nat) : String :=
  toString n ++ " " ++ if n = 1 then one else many

/-- The outcome of an array of which the first `n` items were wanted. -/
def endOfTuple (origin : Origin) (n : Nat) (items : List Draft) (broken : Option Failure)
    (a : α) : Except Failure α :=
  if n < items.length then
    mismatch <| .wrongLength items.length <| match origin with
      | .buffer => countOf "element in sequence" "elements in sequence" n
      | _ => "fewer elements in array"
  else unlessBroken broken a

/-- The item at place `i`, which must be there. -/
def item (d : Decoder α) (origin : Origin) (wanted : String) (items : List Draft)
    (broken : Option Failure) (i : Nat) : Except Failure α :=
  match items[i]? with
  | some draft => d.decode origin draft
  | none =>
    match broken with
    | some f => .error f
    | none => mismatch (.wrongLength i wanted)

/-- An array of one item. -/
def single (d : Decoder α) : Decoder α :=
  let wanted := "a tuple of size 1"
  ⟨.tuple [d.outline], fun origin draft => match draft with
    | .arr items broken => do
      let a ← item d origin wanted items broken 0
      endOfTuple origin 1 items broken a
    | draft => wrongType wanted draft⟩

/-- An array of two items. -/
def pair (d : Decoder α) (e : Decoder β) : Decoder (α × β) :=
  let wanted := "a tuple of size 2"
  ⟨.tuple [d.outline, e.outline], fun origin draft => match draft with
    | .arr items broken => do
      let a ← item d origin wanted items broken 0
      let b ← item e origin wanted items broken 1
      endOfTuple origin 2 items broken (a, b)
    | draft => wrongType wanted draft⟩

/-- An array of three items. -/
def triple {γ : Type} (d : Decoder α) (e : Decoder β) (f : Decoder γ) :
    Decoder (α × β × γ) :=
  let wanted := "a tuple of size 3"
  ⟨.tuple [d.outline, e.outline, f.outline], fun origin draft => match draft with
    | .arr items broken => do
      let a ← item d origin wanted items broken 0
      let b ← item e origin wanted items broken 1
      let c ← item f origin wanted items broken 2
      endOfTuple origin 3 items broken (a, b, c)
    | draft => wrongType wanted draft⟩

/-- All members of an object, up to the first that fails. -/
def decodeMembers (f : Draft → Except Failure α) :
    List (String × Draft) → Except Failure (List (String × α))
  | [] => .ok []
  | (k, x) :: rest =>
    match f x with
    | .error e => .error e
    | .ok a => (decodeMembers f rest).map ((k, a) :: ·)

/-- An object of like members, in the order of their names; of two with one name the
later stays. -/
def members (d : Decoder α) : Decoder (List (String × α)) :=
  ⟨.whole, fun origin draft => match draft with
    | .obj ms broken =>
      match decodeMembers (d.decode origin) ms with
      | .error e => .error e
      | .ok as => unlessBroken broken (Value.sortMembers as)
    | draft => wrongType "a map" draft⟩

end Decoder

end Permit.Json
