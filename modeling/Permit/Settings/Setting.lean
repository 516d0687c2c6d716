-- Settings as values of a few kinds, which are turned into one another where one kind is
-- wanted and another is found.
import Permit.Toml.Document

namespace Permit

/-- A value in a configuration. -/
inductive Setting where
  | absent
  | flag (b : Bool)
  | integer (i : Int)
  | float (x : Extended)
  | text (s : String)
  | list (items : List Setting)
  | table (members : List (String × Setting))
deriving Inhabited

namespace Setting

/-! ## From TOML -/

mutual

/-- The setting of a value. -/
def ofToml : Toml.Value → Setting
  | .string s => .text s
  | .integer i => .integer i
  | .float x => .float x
  | .boolean b => .flag b
  | .moment s => .text s
  | .array _ items => .list (ofTomlItems items)
  | .table _ members => .table (ofTomlMembers members)

def ofTomlItems : List Toml.Value → List Setting
  | [] => []
  | v :: rest => ofToml v :: ofTomlItems rest

def ofTomlMembers : List (String × Toml.Value) → List (String × Setting)
  | [] => []
  | (k, v) :: rest => (k, ofToml v) :: ofTomlMembers rest

end

/-! ## Parts -/

/-- The members of a table; anything else has none. -/
def members : Setting → List (String × Setting)
  | .table members => members
  | _ => []

/-- The items of a list; anything else has none. -/
def items : Setting → List Setting
  | .list items => items
  | _ => []

/-- The member of that name. -/
def member (s : Setting) (name : String) : Setting := (s.members.lookup name).getD .absent

/-- A table with the member set. What was no table is one afterwards. -/
def withMember (s : Setting) (name : String) (v : Setting) : Setting :=
  .table (Toml.put name v s.members)

@[simp] theorem member_withMember_self (s : Setting) (name : String) (v : Setting) :
    (s.withMember name v).member name = v := by
  simp [withMember, member, members]

theorem member_withMember_ne {name other : String} (h : other ≠ name) (s v : Setting) :
    (s.withMember name v).member other = s.member other := by
  simp [withMember, member, members, Toml.lookup_put_ne h]

/-! ## Layers -/

mutual

/-- A setting over an earlier one: tables are joined member by member, and anything else
takes the place of what was there. A table without members changes only what is absent. -/
def overlay (earlier : Setting) : Setting → Setting
  | .table members =>
    overlayMembers (match earlier with | .absent => .table [] | earlier => earlier) members
  | s => s

/-- Members over an earlier setting. -/
def overlayMembers (earlier : Setting) : List (String × Setting) → Setting
  | [] => earlier
  | (name, s) :: rest =>
    overlayMembers (earlier.withMember name (overlay (earlier.member name) s)) rest

end

/-! ## Kinds -/

/-- The words for yes in lower case. -/
def yesWords : List String := ["true", "on", "yes"]

/-- The words for no in lower case. -/
def noWords : List String := ["false", "off", "no"]

/-- The setting as a text: that of a flag or a number is its usual one. -/
def toText? : Setting → Option String
  | .text s => some s
  | .flag b => some (if b then "true" else "false")
  | .integer i => some (String.ofList (intDigits i))
  | .float x => some x.text
  | .absent | .list _ | .table _ => none

/-- The setting as a flag: a number is one unless it is zero, and a text if it is a digit or
a word for yes or no, in any case. -/
def toFlag? : Setting → Option Bool
  | .flag b => some b
  | .integer i => some (i != 0)
  | .float x => some (!x.isZero)
  | .text s =>
    let word := s.toLower
    if word = "1" ∨ yesWords.contains word then some true
    else if word = "0" ∨ noWords.contains word then some false
    else none
  | .absent | .list _ | .table _ => none

/-- The setting as a natural number: a float is rounded, and a text is a word for yes or no
in any case or has nothing but digits, perhaps after a plus. -/
def toNat? : Setting → Option Nat
  | .flag b => some (if b then 1 else 0)
  | .integer i => if 0 ≤ i then some i.toNat else none
  | .float x => x.roundToNat?
  | .text s =>
    let word := s.toLower
    if yesWords.contains word then some 1
    else if noWords.contains word then some 0
    else if s.startsWith "-" then none
    else (Extended.wholeOfText? s.toList).map Int.toNat
  | .absent | .list _ | .table _ => none

end Setting
end Permit
