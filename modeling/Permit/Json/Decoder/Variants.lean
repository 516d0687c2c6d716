-- Variants: one of several forms, told by a name that stands around its payload or among its
-- members.
import Permit.Json.Decoder.Record

namespace Permit.Json

/-- What a variant holds: nothing, one value, or fields. -/
inductive Payload (α : Type) where
  | nothing (a : α)
  | value (d : Decoder α)
  | fields (r : Record α) (wanted : String)

namespace Payload

variable {α : Type}

/-- The outline of a payload. -/
def outline : Payload α → Outline
  | .nothing _ => .whole
  | .value d => d.outline
  | .fields r _ => r.outline

/-- A variant that is only named. -/
def ofName : Payload α → Except Failure α
  | .nothing a => .ok a
  | .value _ => Decoder.mismatch (.wrongType .unitVariant "newtype variant")
  | .fields _ _ => Decoder.mismatch (.wrongType .unitVariant "struct variant")

/-- A variant with the draft of its payload. Fields in memory must be an object. -/
def decode (origin : Origin) (draft : Draft) : Payload α → Except Failure α
  | .nothing a => (Decoder.unit.decode origin draft).map fun _ => a
  | .value d => d.decode origin draft
  | .fields r wanted =>
    match origin, draft with
    | .text, draft => (r.toDecoder wanted false).decode .text draft
    | origin, .obj members broken => r.ofMembers false origin members broken
    | _, draft => Decoder.wrongType "struct variant" draft

/-- The fields of a variant beside its tag, set aside. -/
def ofTagged (draft : Draft) : Payload α → Except Failure α
  | .nothing a =>
    match draft with
    | .arr items broken => Decoder.endOfTuple .buffer 0 items broken a
    | _ => .ok a
  | .value d => d.decode .buffer draft
  | .fields r wanted => (r.toDecoder wanted false).decode .buffer draft

end Payload

/-- The variants of a choice by their names. -/
abbrev Variants (α : Type) := List (String × Payload α)

namespace Variants

variable {α : Type}

/-- The variant of that name. -/
def select (variants : Variants α) (name : String) : Except Failure (Payload α) :=
  match variants.find? fun v => v.1 == name with
  | some v => .ok v.2
  | none => .error (.mismatch (.unknownVariant name (variants.map Prod.fst)))

/-- A choice written as a name, or as an object whose only member is named for it. -/
def toDecoder (variants : Variants α) : Decoder α :=
  ⟨.variant (variants.map fun v => (v.1, v.2.outline)), fun origin draft =>
    match draft with
    | .str name => do (← select variants name).ofName
    | .obj [(name, payload)] broken => do
      let a ← (← select variants name).decode origin payload
      Decoder.unlessBroken broken a
    | .obj _ _ => Decoder.mismatch (.wrongValue .map "map with a single key")
    | draft => Decoder.wrongType "string or map" draft⟩

/-- The variant that a tag names. In what was set aside, a number names one by its
place. -/
def ofTag (variants : Variants α) (origin : Origin) (draft : Draft) :
    Except Failure (Payload α) :=
  match origin, draft with
  | _, .str name => select variants name
  | .buffer, .num (.int i fits) =>
    if i < 0 then Decoder.wrongType "variant identifier" draft
    else
      match variants[i.toNat]? with
      | some v => .ok v.2
      | none => Decoder.mismatch (.wrongValue (.number (.int i fits))
          ("variant index 0 <= i < " ++ toString variants.length))
  | _, draft => Decoder.wrongType "variant identifier" draft

/-- The variant and the other members of an object with a tag, looked at in their order;
`chosen` once the tag was met. -/
def splitMembers (variants : Variants α) (tag : String) (origin : Origin) :
    Option (Payload α) → List (String × Draft) →
    Except Failure (Option (Payload α) × List (String × Value))
  | chosen, [] => .ok (chosen, [])
  | chosen, (name, draft) :: rest =>
    if name = tag then
      if chosen.isSome then Decoder.mismatch (.duplicateField tag)
      else
        match variants.ofTag origin draft with
        | .error e => .error e
        | .ok payload => splitMembers variants tag origin (some payload) rest
    else
      match draft.settle with
      | .error e => .error e
      | .ok v =>
        (splitMembers variants tag origin chosen rest).map fun (payload, others) =>
          (payload, (name, v) :: others)

/-- A choice written as an object in which the member `tag` names the variant and the
others are its fields, or as an array that starts with the name. -/
def toTaggedDecoder (variants : Variants α) (tag wanted : String) : Decoder α :=
  ⟨.whole, fun origin draft =>
    match draft with
    | .obj members broken => do
      let (payload?, others) ← splitMembers variants tag origin none members
      Decoder.unlessBroken broken ()
      match payload? with
      | none => Decoder.mismatch (.missingField tag)
      | some payload => payload.ofTagged (Value.obj others).toDraft
    | .arr [] broken => do
      Decoder.unlessBroken broken ()
      Decoder.mismatch (.missingField tag)
    | .arr (first :: rest) broken => do
      let payload ← variants.ofTag origin first
      let items ← Draft.settleItems rest
      Decoder.unlessBroken broken ()
      payload.ofTagged (Value.arr items).toDraft
    | draft => Decoder.wrongType wanted draft⟩

end Variants
end Permit.Json
