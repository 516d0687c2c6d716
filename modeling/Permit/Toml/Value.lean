-- TOML values, and tables while they are put together. How a table was written decides
-- whether more may be added to it from elsewhere.
import Permit.Decimal.Extended

namespace Permit.Toml

/-- How a table was written: under its own header, only named in the headers of others,
filled by dotted keys, or in braces. -/
inductive TableKind where
  | headed
  | implied
  | dotted
  | braces
deriving DecidableEq, Repr

/-- A value. A date or a time is kept as its text; an array is `open` when its items are
tables under headers. -/
inductive Value where
  | string (s : String)
  | integer (i : Int)
  | float (x : Extended)
  | boolean (b : Bool)
  | moment (text : String)
  | array (isOpen : Bool) (items : List Value)
  | table (kind : TableKind) (members : List (String × Value))

/-- The members of a table in the order of the text. -/
abbrev Members := List (String × Value)

/-- The members with `name` set to `v`, in its old place or at the end. -/
def put {β : Type} (name : String) (v : β) : List (String × β) → List (String × β)
  | [] => [(name, v)]
  | (k, w) :: rest => if k = name then (name, v) :: rest else (k, w) :: put name v rest

@[simp] theorem lookup_put_self {β : Type} (name : String) (v : β) (members : List (String × β)) :
    (put name v members).lookup name = some v := by
  induction members with
  | nil => simp [put]
  | cons m rest ih =>
    obtain ⟨k, w⟩ := m
    by_cases h : k = name
    · simp [put, h]
    · have hne : (name == k) = false := by simpa using Ne.symm h
      simp [put, h, List.lookup_cons, hne, ih]

theorem lookup_put_ne {β : Type} {name other : String} (h : other ≠ name) (v : β)
    (members : List (String × β)) :
    (put name v members).lookup other = members.lookup other := by
  have hne : (other == name) = false := by simpa using h
  induction members with
  | nil => simp [put, List.lookup_cons, hne]
  | cons m rest ih =>
    obtain ⟨k, w⟩ := m
    by_cases hk : k = name
    · subst hk
      simp [put, List.lookup_cons, hne]
    · simp [put, hk, List.lookup_cons, ih]

/-- Changes the table at the end of a path, and creates those that are missing. A path of
dotted keys may not enter a table under a header, and no path one in braces; an open array
stands for its last table. -/
def within (dotted : Bool)
    (change : TableKind → Members → Option (TableKind × Members)) :
    List String → TableKind → Members → Option (TableKind × Members)
  | [], kind, members => change kind members
  | name :: path, outer, members =>
    match members.lookup name with
    | none =>
      (within dotted change path (if dotted then .dotted else .implied) []).map
        fun (kind, inner) => (outer, put name (.table kind inner) members)
    | some (.table kind inner) =>
      if kind = .braces ∨ (dotted ∧ kind = .headed) then none
      else
        (within dotted change path kind inner).map fun (kind, inner) =>
          (outer, put name (.table kind inner) members)
    | some (.array true items) =>
      match items.getLast? with
      | some (.table kind inner) =>
        (within dotted change path kind inner).map fun (kind, inner) =>
          (outer, put name (.array true (items.dropLast ++ [.table kind inner])) members)
      | _ => none
    | some _ => none

/-- The members with a new one under a dotted key: its last part must be new, in a table
that is this one or has no header. An implied table with such a member counts as dotted
from then on, so no header of its own may follow. -/
def addEntry (path : List String) (name : String) (v : Value) (members : Members) :
    Option Members :=
  (within true (fun kind inner =>
    if (path ≠ [] ∧ kind = .headed) ∨ (inner.lookup name).isSome then none
    else some (if path = [] then kind else .dotted, inner ++ [(name, v)]))
    path .headed members).map Prod.snd

/-- A key: the names before its last one, and that. -/
structure Key where
  path : List String
  name : String
deriving DecidableEq, Repr

/-- An assignment in a table. -/
structure Entry where
  key : Key
  value : Value

/-- The members with more entries. -/
def addEntries (members : Members) : List Entry → Option Members
  | [] => some members
  | e :: rest =>
    match addEntry e.key.path e.key.name e.value members with
    | none => none
    | some members => addEntries members rest

end Permit.Toml
