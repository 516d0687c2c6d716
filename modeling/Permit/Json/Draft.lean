-- What a text spells up to where it breaks. A draft is a value in which the place of a
-- failure is kept, so that whoever looks at it from left to right meets the failures in
-- the order of the text.
import Permit.Json.Failure

namespace Permit.Json

/-- What a reader will look at: a value whole, items that are alike, items by position,
members by name, or one of several named variants. -/
inductive Outline where
  | whole
  | list (item : Outline)
  | tuple (items : List Outline)
  | record (fields : List (String × Outline))
  | variant (payloads : List (String × Outline))
deriving Inhabited

namespace Outline

/-- The outline of the member or variant with the given name. -/
def find? (name : String) : List (String × Outline) → Option Outline
  | [] => none
  | (k, o) :: rest => if k = name then some o else find? name rest

end Outline

/-- A value as far as it could be read. After the items of an array, or the members of an
object, may stand the failure that was met when more was due. -/
inductive Draft where
  | null
  | bool (b : Bool)
  | num (n : Number)
  | str (s : String)
  | arr (items : List Draft) (broken : Option Failure)
  | obj (members : List (String × Draft)) (broken : Option Failure)
  | failed (f : Failure)
deriving Inhabited

namespace Draft

/-! ## Drafts without failures -/

mutual

/-- The value that was read whole, or the first failure in it. -/
def settle : Draft → Except Failure Value
  | .null => .ok .null
  | .bool b => .ok (.bool b)
  | .num n => .ok (.num n)
  | .str s => .ok (.str s)
  | .arr items broken =>
    match settleItems items with
    | .error f => .error f
    | .ok vs => match broken with
      | none => .ok (.arr vs)
      | some f => .error f
  | .obj members broken =>
    match settleMembers members with
    | .error f => .error f
    | .ok vs => match broken with
      | none => .ok (.obj vs)
      | some f => .error f
  | .failed f => .error f

def settleItems : List Draft → Except Failure (List Value)
  | [] => .ok []
  | d :: rest =>
    match settle d with
    | .error f => .error f
    | .ok v => (settleItems rest).map (v :: ·)

def settleMembers : List (String × Draft) → Except Failure (List (String × Value))
  | [] => .ok []
  | (k, d) :: rest =>
    match settle d with
    | .error f => .error f
    | .ok v => (settleMembers rest).map ((k, v) :: ·)

end

/-- What is found where a draft has the wrong type. -/
def found? : Draft → Except Failure Found
  | .null => .ok .null
  | .bool b => .ok (.bool b)
  | .num n => .ok (.number n)
  | .str s => .ok (.string s)
  | .arr _ _ => .ok .sequence
  | .obj _ _ => .ok .map
  | .failed f => .error f

end Draft

/-! ## Values as drafts -/

namespace Value

mutual

/-- A value is a draft without failures. -/
def toDraft : Value → Draft
  | .null => .null
  | .bool b => .bool b
  | .num n => .num n
  | .str s => .str s
  | .arr items => .arr (toDraftItems items) none
  | .obj members => .obj (toDraftMembers members) none

def toDraftItems : List Value → List Draft
  | [] => []
  | v :: rest => toDraft v :: toDraftItems rest

def toDraftMembers : List (String × Value) → List (String × Draft)
  | [] => []
  | (k, v) :: rest => (k, toDraft v) :: toDraftMembers rest

end

mutual

theorem settle_toDraft : ∀ v : Value, v.toDraft.settle = .ok v
  | .null | .bool _ | .num _ | .str _ => rfl
  | .arr items => by simp [toDraft, Draft.settle, settle_toDraftItems items]
  | .obj members => by simp [toDraft, Draft.settle, settle_toDraftMembers members]

theorem settle_toDraftItems : ∀ items, Draft.settleItems (toDraftItems items) = .ok items
  | [] => rfl
  | v :: rest => by
    simp [toDraftItems, Draft.settleItems, settle_toDraft v, settle_toDraftItems rest, Except.map]

theorem settle_toDraftMembers :
    ∀ members, Draft.settleMembers (toDraftMembers members) = .ok members
  | [] => rfl
  | (k, v) :: rest => by
    simp [toDraftMembers, Draft.settleMembers, settle_toDraft v, settle_toDraftMembers rest,
      Except.map]

end

end Value
end Permit.Json
