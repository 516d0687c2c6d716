-- The JSON form of criteria. Every document is "any of" a list of "all of" lists:
-- `{"anyOf": [{"allOf": [node, ...]}, ...]}`, where a node is a leaf or again a document.
import Permit.Criteria.Basic
import Permit.Json.Decoder.Record

namespace Permit.Criteria

open Json

variable {α : Type}

/-! ## Writing -/

/-- A document with the given conjunctions. -/
def anyOf (conjunctions : List Value) : Value := .obj [("anyOf", .arr conjunctions)]

/-- A conjunction of the given nodes. -/
def allOf (nodes : List Value) : Value := .obj [("allOf", .arr nodes)]

mutual

/-- A tree where a conjunction is due: an `all` is one, any other is its only node. -/
def conjunction (leaf : α → Value) : Criteria α → Value
  | .leaf a => allOf [leaf a]
  | .all children => allOf (nodes leaf children)
  | .any children => allOf [anyOf (conjunctions leaf children)]

/-- A tree where a node is due: a leaf stands for itself, a group is a document. -/
def node (leaf : α → Value) : Criteria α → Value
  | .leaf a => leaf a
  | .all children => anyOf [allOf (nodes leaf children)]
  | .any children => anyOf (conjunctions leaf children)

def conjunctions (leaf : α → Value) : List (Criteria α) → List Value
  | [] => []
  | c :: rest => conjunction leaf c :: conjunctions leaf rest

def nodes (leaf : α → Value) : List (Criteria α) → List Value
  | [] => []
  | c :: rest => node leaf c :: nodes leaf rest

end

/-- The document of a tree: an `any` lists its children, any other is its only
conjunction. -/
def toJson (leaf : α → Value) : Criteria α → Value
  | .any children => anyOf (conjunctions leaf children)
  | c => anyOf [conjunction leaf c]

/-! ## Reading -/

section Reading

mutual

/-- The tree of a document inside another, if the value has its shape: an object with the
one member `anyOf`, or an array of that one list. -/
def nested? (leaf? : Value → Option α) : Value → Option (Criteria α)
  | .obj [(name, .arr items)] =>
    if name = "anyOf" then (conjunctions? leaf? items).map .any else none
  | .arr [.arr items] => (conjunctions? leaf? items).map .any
  | _ => none

/-- The tree of a conjunction inside a document, if the value has its shape: an object with
the one member `allOf`, or an array of that one list. -/
def conjunction? (leaf? : Value → Option α) : Value → Option (Criteria α)
  | .obj [(name, .arr items)] =>
    if name = "allOf" then (nodes? leaf? items).map .all else none
  | .arr [.arr items] => (nodes? leaf? items).map .all
  | _ => none

def conjunctions? (leaf? : Value → Option α) : List Value → Option (List (Criteria α))
  | [] => some []
  | v :: rest =>
    match conjunction? leaf? v with
    | none => none
    | some c => (conjunctions? leaf? rest).map (c :: ·)

/-- The trees of nodes: each a document if it has that shape, and else a leaf. -/
def nodes? (leaf? : Value → Option α) : List Value → Option (List (Criteria α))
  | [] => some []
  | v :: rest =>
    match (nested? leaf? v).or ((leaf? v).map .leaf) with
    | none => none
    | some c => (nodes? leaf? rest).map (c :: ·)

end

/-- The tree of a node: a document if it has that shape, and else a leaf. -/
def node? (leaf? : Value → Option α) (v : Value) : Option (Criteria α) :=
  (nested? leaf? v).or ((leaf? v).map .leaf)

end Reading

/-- A node, which is read whole before it is looked at. -/
def nodeDecoder (leaf : Decoder α) : Decoder (Criteria α) :=
  ⟨.whole, fun _ draft =>
    match draft.settle with
    | .error f => .error f
    | .ok v =>
      match node? leaf.ofBuffer? v with
      | some c => .ok c
      | none => Decoder.mismatch (.noVariant "WireNode")⟩

/-- A conjunction. -/
def conjunctionDecoder (leaf : Decoder α) : Decoder (Criteria α) :=
  ((Record.required "allOf" (.list (nodeDecoder leaf))).map .all).toDecoder
    "struct WireConjunction" true

/-- A document. -/
def decoder (leaf : Decoder α) : Decoder (Criteria α) :=
  ((Record.required "anyOf" (.list (conjunctionDecoder leaf))).map .any).toDecoder
    "struct WireCriteria" true

/-- The criteria that a JSON text spells. -/
def ofJsonText (leaf : Decoder α) (text : String) : Except Failure (Criteria α) :=
  (decoder leaf).ofText (Text.ofString text)

end Permit.Criteria
