-- TOML documents: sections of assignments under their headers make one table. A table is
-- written in one place, but the tables above it may come later.
import Permit.Toml.Reader

namespace Permit.Toml

/-- A header with the assignments under it. -/
structure Section where
  key : Key
  inArray : Bool
  entries : List Entry

/-- The assignments before the first header, and the sections. -/
def sections : List Statement → List Entry × List Section
  | [] => ([], [])
  | .entry e :: rest =>
    let (entries, more) := sections rest
    (e :: entries, more)
  | .header key :: rest =>
    let (entries, more) := sections rest
    ([], ⟨key, false, entries⟩ :: more)
  | .arrayHeader key :: rest =>
    let (entries, more) := sections rest
    ([], ⟨key, true, entries⟩ :: more)

/-- The table with a section of its own: new, or so far only named by others. -/
def addTable (name : String) (entries : List Entry) (members : Members) : Option Members :=
  let earlier := match members.lookup name with
    | none => some []
    | some (.table .implied inner) => some inner
    | some _ => none
  (earlier.bind fun inner => addEntries inner entries).map fun inner =>
    put name (.table .headed inner) members

/-- The open array with one more table. -/
def addToArray (name : String) (entries : List Entry) (members : Members) :
    Option Members :=
  let earlier := match members.lookup name with
    | none => some []
    | some (.array true items) => some items
    | some _ => none
  match earlier, addEntries [] entries with
  | some items, some inner =>
    some (put name (.array true (items ++ [.table .headed inner])) members)
  | _, _ => none

/-- The document with one more section. -/
def addSection (members : Members) (s : Section) : Option Members :=
  (within false (fun kind parent =>
    let grown :=
      if s.inArray then addToArray s.key.name s.entries parent
      else addTable s.key.name s.entries parent
    grown.map (kind, ·)) s.key.path .headed members).map Prod.snd

/-- The document with more sections. -/
def addSections (members : Members) : List Section → Option Members
  | [] => some members
  | s :: rest =>
    match addSection members s with
    | none => none
    | some members => addSections members rest

/-- The table of a text, if it is TOML. -/
def document? (text : String) : Option Members :=
  match statements? text.toList with
  | none => none
  | some statements =>
    let (entries, more) := sections statements
    match addEntries [] entries with
    | none => none
    | some members => addSections members more

end Permit.Toml
