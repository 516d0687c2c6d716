-- Codecs: a decoder with the way back. Writing gives the members of an object in the
-- order of their declaration.
import Permit.Json.Decoder.Basic

namespace Permit.Json

/-- Why data has no JSON form: only strings can name the members of an object. -/
inductive EncodeError where
  | keyNotString
deriving DecidableEq, Repr

/-- What is said about it. -/
def EncodeError.message : EncodeError → String
  | .keyNotString => "key must be a string"

/-- Writes an `α` and reads it back. -/
structure Codec (α : Type) where
  decoder : Decoder α
  encode : α → Except EncodeError Value

namespace Codec

variable {α β γ : Type}

/-- The value of an `α`, in canonical form. -/
def toValue (c : Codec α) (a : α) : Except EncodeError Value :=
  (c.encode a).map Value.normalize

/-! ## Scalars -/

def whole : Codec Value := ⟨.whole, .ok⟩

def string : Codec String := ⟨.string, fun s => .ok (.str s)⟩

def bool : Codec Bool := ⟨.bool, fun b => .ok (.bool b)⟩

def int64 : Codec Int64 := ⟨.int64, fun i => .ok (.ofInt i.toInt)⟩

def uint8 : Codec UInt8 := ⟨.uint8, fun i => .ok (.ofInt i.toNat)⟩

def float : Codec Binary64 := ⟨.float, fun x => .ok (.num (.float x))⟩

def unit : Codec Unit := ⟨.unit, fun _ => .ok .null⟩

/-! ## Compounds -/

def option (c : Codec α) : Codec (Option α) :=
  ⟨.option c.decoder, fun
    | none => .ok .null
    | some a => c.encode a⟩

/-- The values of a list, up to the first that has none. -/
def encodeAll (c : Codec α) : List α → Except EncodeError (List Value)
  | [] => .ok []
  | a :: rest =>
    match c.encode a with
    | .error e => .error e
    | .ok v => (encodeAll c rest).map (v :: ·)

def list (c : Codec α) : Codec (List α) :=
  ⟨.list c.decoder, fun as => (encodeAll c as).map Value.arr⟩

def single (c : Codec α) : Codec α :=
  ⟨.single c.decoder, fun a => (c.encode a).map fun v => .arr [v]⟩

def pair (c : Codec α) (d : Codec β) : Codec (α × β) :=
  ⟨.pair c.decoder d.decoder, fun (a, b) => do
    return .arr [← c.encode a, ← d.encode b]⟩

def triple (c : Codec α) (d : Codec β) (e : Codec γ) : Codec (α × β × γ) :=
  ⟨.triple c.decoder d.decoder e.decoder, fun (x, y, z) => do
    return .arr [← c.encode x, ← d.encode y, ← e.encode z]⟩

/-- The values of members, up to the first that has none. -/
def encodeMembers (c : Codec α) : List (String × α) → Except EncodeError (List (String × Value))
  | [] => .ok []
  | (k, a) :: rest =>
    match c.encode a with
    | .error e => .error e
    | .ok v => (encodeMembers c rest).map ((k, v) :: ·)

def members (c : Codec α) : Codec (List (String × α)) :=
  ⟨.members c.decoder, fun ms => (encodeMembers c ms).map Value.obj⟩

end Codec
end Permit.Json
