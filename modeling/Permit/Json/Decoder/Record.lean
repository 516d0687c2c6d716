-- Records: objects with known fields, or arrays of the fields in their order.
import Permit.Json.Decoder.Basic

namespace Permit.Json

/-- A field of a record: its name, its outline, and a look at its value. -/
structure Field where
  name : String
  outline : Outline
  check : Origin → Draft → Except Failure Unit

/-- A description of an object by its fields: what they are, and how the whole is built
once each is known to be good. -/
structure Record (α : Type) where
  fields : List Field
  build : Origin → (String → Option Draft) → (String → Failure) → Except Failure α

namespace Record

variable {α β : Type}

/-- A record of one field. Without it, `missing` is taken if there is one. -/
def field (name : String) (d : Decoder α) (missing : Option α) : Record α where
  fields := [⟨name, d.outline, fun origin draft => (d.decode origin draft).map fun _ => ()⟩]
  build := fun origin draft? absent =>
    match draft? name with
    | some draft => d.decode origin draft
    | none =>
      match missing with
      | some a => .ok a
      | none => .error (absent name)

/-- A field that must be there. -/
def required (name : String) (d : Decoder α) : Record α := field name d none

/-- A field that may be left out. -/
def optional (name : String) (d : Decoder α) : Record (Option α) :=
  field name d.option (some none)

/-- The fields of both records. -/
def and (r : Record α) (s : Record β) : Record (α × β) where
  fields := r.fields ++ s.fields
  build := fun origin draft? absent =>
    match r.build origin draft? absent with
    | .error e => .error e
    | .ok a => (s.build origin draft? absent).map (a, ·)

/-- Changes what was built. -/
def map (f : α → β) (r : Record α) : Record β where
  fields := r.fields
  build := fun origin draft? absent => (r.build origin draft? absent).map f

/-- The names of the fields. -/
def names (r : Record α) : List String := r.fields.map Field.name

/-- The outline of the record. -/
def outline (r : Record α) : Outline := .record (r.fields.map fun f => (f.name, f.outline))

/-- The first member of that name. -/
def lookup (members : List (String × Draft)) (name : String) : Option Draft :=
  (members.find? fun m => m.1 == name).map Prod.snd

/-- Looks at the members in their order: each known field is good and comes once, and what
is unknown is passed over unless `strict`. -/
def checkMembers (r : Record α) (strict : Bool) (origin : Origin) (seen : List String) :
    List (String × Draft) → Except Failure Unit
  | [] => .ok ()
  | (name, draft) :: rest =>
    match r.fields.find? (fun f => f.name == name) with
    | some f =>
      if seen.contains name then .error (.mismatch (.duplicateField name))
      else
        match f.check origin draft with
        | .error e => .error e
        | .ok () => checkMembers r strict origin (name :: seen) rest
    | none =>
      if strict then .error (.mismatch (.unknownField name r.names))
      else
        match draft with
        | .failed f => .error f
        | _ => checkMembers r strict origin seen rest

/-- Looks at items as the fields in their order. -/
def checkItems (origin : Origin) : List Field → List Draft → Except Failure Unit
  | f :: fields, draft :: rest =>
    match f.check origin draft with
    | .error e => .error e
    | .ok () => checkItems origin fields rest
  | _, _ => .ok ()

/-- From an object. -/
def ofMembers (r : Record α) (strict : Bool) (origin : Origin)
    (members : List (String × Draft)) (broken : Option Failure) : Except Failure α := do
  checkMembers r strict origin [] members
  Decoder.unlessBroken broken ()
  r.build origin (lookup members) fun name => .mismatch (.missingField name)

/-- From an array of the fields in their order. -/
def ofItems (r : Record α) (wanted : String) (origin : Origin) (items : List Draft)
    (broken : Option Failure) : Except Failure α := do
  checkItems origin r.fields items
  if items.length < r.fields.length then Decoder.unlessBroken broken ()
  let wanted := wanted ++ " with " ++ Decoder.countOf "element" "elements" r.fields.length
  let a ← r.build origin (lookup (r.names.zip items)) fun name =>
    .mismatch (.wrongLength (r.names.idxOf name) wanted)
  Decoder.endOfTuple origin r.fields.length items broken a

/-- A record called `wanted`, from an object or from an array. -/
def toDecoder (r : Record α) (wanted : String) (strict : Bool) : Decoder α :=
  ⟨r.outline, fun origin draft => match draft with
    | .obj members broken => r.ofMembers strict origin members broken
    | .arr items broken => r.ofItems wanted origin items broken
    | draft => Decoder.wrongType wanted draft⟩

end Record

end Permit.Json
