-- JSON values. Numbers keep their kind: a whole number of 64 bits is not the float of
-- the same size. The canonical form of an object has its names in order, each once.
import Permit.Decimal.Binary64

namespace Permit.Json

/-! ## Numbers -/

/-- The whole numbers that are kept exact: those of 64 bits, with a sign or without. -/
def Fits (i : Int) : Prop := -0x8000000000000000 ≤ i ∧ i < 0x10000000000000000

instance (i : Int) : Decidable (Fits i) := inferInstanceAs (Decidable (_ ∧ _))

/-- A number: a whole number of 64 bits or a finite binary64 number. -/
inductive Number where
  | int (i : Int) (fits : Fits i)
  | float (x : Binary64)
deriving DecidableEq

namespace Number

/-- The whole number `i`, if it is one of 64 bits. -/
def int? (i : Int) : Option Number :=
  if h : Fits i then some (.int i h) else none

/-- Numbers are the same if they have the same kind and the same size. -/
def same : Number → Number → Bool
  | .int i _, .int j _ => i == j
  | .float x, .float y => x.same y
  | _, _ => false

end Number

/-! ## Values -/

inductive Value where
  | null
  | bool (b : Bool)
  | num (n : Number)
  | str (s : String)
  | arr (items : List Value)
  | obj (members : List (String × Value))
deriving Inhabited

namespace Value

/-- The whole number `i`, or `null` when it does not fit. -/
def ofInt (i : Int) : Value := ((Number.int? i).map num).getD null

/-! ## Same values -/

mutual

/-- Values are the same if they have the same shape and the same numbers, where the two
zeros are one number. -/
def same : Value → Value → Bool
  | .null, .null => true
  | .bool a, .bool b => a == b
  | .num a, .num b => a.same b
  | .str a, .str b => a == b
  | .arr as, .arr bs => sameItems as bs
  | .obj as, .obj bs => sameMembers as bs
  | _, _ => false

def sameItems : List Value → List Value → Bool
  | [], [] => true
  | a :: as, b :: bs => same a b && sameItems as bs
  | _, _ => false

def sameMembers : List (String × Value) → List (String × Value) → Bool
  | [], [] => true
  | (k, a) :: as, (l, b) :: bs => k == l && same a b && sameMembers as bs
  | _, _ => false

end

/-! ## Nesting -/

mutual

/-- How many arrays and objects stand inside one another. -/
def depth : Value → Nat
  | .arr items => depthItems items + 1
  | .obj members => depthMembers members + 1
  | _ => 0

def depthItems : List Value → Nat
  | [] => 0
  | v :: rest => max (depth v) (depthItems rest)

def depthMembers : List (String × Value) → Nat
  | [] => 0
  | (_, v) :: rest => max (depth v) (depthMembers rest)

end

/-! ## The canonical form -/

/-- The members with `name` set to `v`, in the order of the names. -/
def insertMember {β : Type} (name : String) (v : β) : List (String × β) → List (String × β)
  | [] => [(name, v)]
  | (k, w) :: rest =>
    if name < k then (name, v) :: (k, w) :: rest
    else if name = k then (name, v) :: rest
    else (k, w) :: insertMember name v rest

/-- The members in the order of their names; of two with one name the later stays. -/
def sortMembers {β : Type} (members : List (String × β)) : List (String × β) :=
  members.foldl (fun sorted m => insertMember m.1 m.2 sorted) []

mutual

/-- The same value with every object in canonical form. -/
def normalize : Value → Value
  | .arr items => .arr (normalizeItems items)
  | .obj members => .obj (sortMembers (normalizeMembers members))
  | v => v

def normalizeItems : List Value → List Value
  | [] => []
  | v :: rest => normalize v :: normalizeItems rest

def normalizeMembers : List (String × Value) → List (String × Value)
  | [] => []
  | (k, v) :: rest => (k, normalize v) :: normalizeMembers rest

end

mutual

/-- Every object has its names in order, each once. -/
def Canonical : Value → Prop
  | .arr items => CanonicalItems items
  | .obj members => (members.map Prod.fst).Pairwise (· < ·) ∧ CanonicalMembers members
  | _ => True

def CanonicalItems : List Value → Prop
  | [] => True
  | v :: rest => Canonical v ∧ CanonicalItems rest

def CanonicalMembers : List (String × Value) → Prop
  | [] => True
  | (_, v) :: rest => Canonical v ∧ CanonicalMembers rest

end

end Value
end Permit.Json
