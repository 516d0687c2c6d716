-- What is inside a value, item by item: its nesting, its canonical form, its numbers, when it is
-- the same as another, the members that are left when they are sorted, and the text.
import Permit.Json.Canonical
import Permit.Json.Printer

namespace Permit.Json.Value

/-! ## Items and members -/

theorem depthItems_le {vs : List Value} {n : Nat} :
    depthItems vs ≤ n ↔ ∀ v ∈ vs, v.depth ≤ n := by
  induction vs with
  | nil => simp [depthItems]
  | cons v rest ih => rw [depthItems, Nat.max_le, ih, List.forall_mem_cons]

theorem depthMembers_le {ms : List (String × Value)} {n : Nat} :
    depthMembers ms ≤ n ↔ ∀ m ∈ ms, m.2.depth ≤ n := by
  induction ms with
  | nil => simp [depthMembers]
  | cons m rest ih =>
    rw [depthMembers, Nat.max_le, ih, List.forall_mem_cons]

theorem canonicalMembers_iff {ms : List (String × Value)} :
    CanonicalMembers ms ↔ ∀ m ∈ ms, m.2.Canonical := by
  induction ms with
  | nil => simp [CanonicalMembers]
  | cons m rest ih =>
    obtain ⟨k, v⟩ := m
    simp [CanonicalMembers, ih]

/-! ## Whole numbers -/

mutual

/-- Every number in the value is a whole number. -/
def Integral : Value → Prop
  | .num (.float _) => False
  | .arr items => IntegralItems items
  | .obj members => IntegralMembers members
  | _ => True

def IntegralItems : List Value → Prop
  | [] => True
  | v :: rest => Integral v ∧ IntegralItems rest

def IntegralMembers : List (String × Value) → Prop
  | [] => True
  | (_, v) :: rest => Integral v ∧ IntegralMembers rest

end

@[simp]
theorem integral_str (s : String) : (str s).Integral := trivial

@[simp]
theorem integral_arr {vs : List Value} : (arr vs).Integral ↔ ∀ v ∈ vs, v.Integral := by
  rw [Integral]
  induction vs with
  | nil => simp [IntegralItems]
  | cons v rest ih => simp [IntegralItems, ih]

@[simp]
theorem integral_obj {ms : List (String × Value)} :
    (obj ms).Integral ↔ ∀ m ∈ ms, m.2.Integral := by
  rw [Integral]
  induction ms with
  | nil => simp [IntegralMembers]
  | cons m rest ih =>
    obtain ⟨k, v⟩ := m
    simp [IntegralMembers, ih]

/-! ## Other floats -/

mutual

/-- The value with another float for each. -/
def withFloats (f : Binary64 → Binary64) : Value → Value
  | .num (.float x) => .num (.float (f x))
  | .arr items => .arr (withFloatsItems f items)
  | .obj members => .obj (withFloatsMembers f members)
  | v => v

def withFloatsItems (f : Binary64 → Binary64) : List Value → List Value
  | [] => []
  | v :: rest => withFloats f v :: withFloatsItems f rest

def withFloatsMembers (f : Binary64 → Binary64) : List (String × Value) → List (String × Value)
  | [] => []
  | (k, v) :: rest => (k, withFloats f v) :: withFloatsMembers f rest

end

section WithFloats

variable (f : Binary64 → Binary64)

theorem withFloatsItems_eq (vs : List Value) : withFloatsItems f vs = vs.map (withFloats f) := by
  induction vs with
  | nil => rfl
  | cons v rest ih => rw [withFloatsItems, ih, List.map_cons]

theorem withFloatsMembers_eq (ms : List (String × Value)) :
    withFloatsMembers f ms = ms.map fun m => (m.1, m.2.withFloats f) := by
  induction ms with
  | nil => rfl
  | cons m rest ih => rw [withFloatsMembers, ih, List.map_cons]

mutual

/-- Where there is no float, nothing is replaced. -/
theorem withFloats_of_integral : ∀ v : Value, v.Integral → v.withFloats f = v
  | .null, _ | .bool _, _ | .str _, _ | .num (.int _ _), _ => rfl
  | .num (.float _), h => h.elim
  | .arr items, h => by rw [withFloats, withFloatsItems_of_integral items h]
  | .obj members, h => by rw [withFloats, withFloatsMembers_of_integral members h]

theorem withFloatsItems_of_integral : ∀ vs : List Value, IntegralItems vs →
    withFloatsItems f vs = vs
  | [], _ => rfl
  | v :: rest, h => by
    rw [withFloatsItems, withFloats_of_integral v h.1, withFloatsItems_of_integral rest h.2]

theorem withFloatsMembers_of_integral : ∀ ms : List (String × Value), IntegralMembers ms →
    withFloatsMembers f ms = ms
  | [], _ => rfl
  | (k, v) :: rest, h => by
    rw [withFloatsMembers, withFloats_of_integral v h.1, withFloatsMembers_of_integral rest h.2]

end

mutual

/-- A float stays a float. -/
theorem integral_of_withFloats : ∀ v : Value, (v.withFloats f).Integral → v.Integral
  | .null, _ | .bool _, _ | .str _, _ | .num (.int _ _), _ => trivial
  | .num (.float _), h => h
  | .arr items, h => integralItems_of_withFloats items h
  | .obj members, h => integralMembers_of_withFloats members h

theorem integralItems_of_withFloats : ∀ vs : List Value, IntegralItems (withFloatsItems f vs) →
    IntegralItems vs
  | [], _ => trivial
  | v :: rest, h => ⟨integral_of_withFloats v h.1, integralItems_of_withFloats rest h.2⟩

theorem integralMembers_of_withFloats : ∀ ms : List (String × Value),
    IntegralMembers (withFloatsMembers f ms) → IntegralMembers ms
  | [], _ => trivial
  | (_, v) :: rest, h => ⟨integral_of_withFloats v h.1, integralMembers_of_withFloats rest h.2⟩

end

mutual

/-- Floats do not count for the canonical form. -/
theorem canonical_withFloats : ∀ v : Value, v.Canonical → (v.withFloats f).Canonical
  | .null, _ | .bool _, _ | .str _, _ | .num (.int _ _), _ | .num (.float _), _ => trivial
  | .arr items, h => canonicalItems_withFloats items h
  | .obj members, h => by
    have names : (withFloatsMembers f members).map Prod.fst = members.map Prod.fst := by
      simp [withFloatsMembers_eq]
    refine ⟨?_, canonicalMembers_withFloats members h.2⟩
    rw [names]
    exact h.1

theorem canonicalItems_withFloats : ∀ vs : List Value, CanonicalItems vs →
    CanonicalItems (withFloatsItems f vs)
  | [], _ => trivial
  | v :: rest, h => ⟨canonical_withFloats v h.1, canonicalItems_withFloats rest h.2⟩

theorem canonicalMembers_withFloats : ∀ ms : List (String × Value), CanonicalMembers ms →
    CanonicalMembers (withFloatsMembers f ms)
  | [], _ => trivial
  | (_, v) :: rest, h => ⟨canonical_withFloats v h.1, canonicalMembers_withFloats rest h.2⟩

end

end WithFloats

/-! ## Same values -/

mutual

theorem same_self : ∀ v : Value, v.same v = true
  | .null => rfl
  | .bool b => by simp [same]
  | .num n => by cases n <;> simp [same, Number.same, Binary64.same]
  | .str s => by simp [same]
  | .arr items => by rw [same, sameItems_self items]
  | .obj members => by rw [same, sameMembers_self members]

theorem sameItems_self : ∀ items : List Value, sameItems items items = true
  | [] => rfl
  | v :: rest => by rw [sameItems, same_self v, sameItems_self rest, Bool.and_self]

theorem sameMembers_self : ∀ members : List (String × Value), sameMembers members members = true
  | [] => rfl
  | (k, v) :: rest => by
    rw [sameMembers, same_self v, sameMembers_self rest, beq_self_eq_true, Bool.and_self,
      Bool.and_self]

end

mutual

/-- No number in the value is a float zero. -/
def ZeroFree : Value → Prop
  | .num (.float x) => x.m ≠ 0
  | .arr items => ZeroFreeItems items
  | .obj members => ZeroFreeMembers members
  | _ => True

def ZeroFreeItems : List Value → Prop
  | [] => True
  | v :: rest => ZeroFree v ∧ ZeroFreeItems rest

def ZeroFreeMembers : List (String × Value) → Prop
  | [] => True
  | (_, v) :: rest => ZeroFree v ∧ ZeroFreeMembers rest

end

theorem number_eq_of_same {n k : Number} (free : (num k).ZeroFree) (h : n.same k = true) :
    n = k := by
  cases n with
  | int i fits =>
    cases k with
    | int j fits' => simpa [Number.same] using h
    | float y => cases h
  | float x =>
    cases k with
    | int j fits' => cases h
    | float y =>
      obtain ⟨neg, m, q, canonical⟩ := x
      obtain ⟨neg', m', q', canonical'⟩ := y
      have nonzero : m' ≠ 0 := free
      simp only [Number.same, Binary64.same, Bool.or_eq_true, Bool.and_eq_true,
        beq_iff_eq] at h
      obtain ⟨-, zero⟩ | ⟨⟨rfl, rfl⟩, rfl⟩ := h
      · exact absurd zero nonzero
      · rfl

mutual

/-- Where no number is a float zero, values that are the same are equal. -/
theorem eq_of_same : ∀ {a b : Value}, b.ZeroFree → a.same b = true → a = b
  | .null, b, _, h => by
    cases b with
    | null => rfl
    | _ => cases h
  | .bool x, b, _, h => by
    cases b with
    | bool y => simpa [same] using h
    | _ => cases h
  | .num n, b, free, h => by
    cases b with
    | num k => rw [number_eq_of_same free h]
    | _ => cases h
  | .str s, b, _, h => by
    cases b with
    | str t => simpa [same] using h
    | _ => cases h
  | .arr items, b, free, h => by
    cases b with
    | arr others => rw [eq_of_sameItems free h]
    | _ => cases h
  | .obj members, b, free, h => by
    cases b with
    | obj others => rw [eq_of_sameMembers free h]
    | _ => cases h

theorem eq_of_sameItems : ∀ {as bs : List Value}, ZeroFreeItems bs → sameItems as bs = true →
    as = bs
  | [], bs, _, h => by
    cases bs with
    | nil => rfl
    | cons b rest => cases h
  | a :: as, bs, free, h => by
    cases bs with
    | nil => cases h
    | cons b bs =>
      obtain ⟨here, later⟩ := Bool.and_eq_true_iff.1 h
      rw [eq_of_same free.1 here, eq_of_sameItems free.2 later]

theorem eq_of_sameMembers : ∀ {as bs : List (String × Value)}, ZeroFreeMembers bs →
    sameMembers as bs = true → as = bs
  | [], bs, _, h => by
    cases bs with
    | nil => rfl
    | cons b rest => cases h
  | (k, a) :: as, bs, free, h => by
    cases bs with
    | nil => cases h
    | cons b bs =>
      obtain ⟨l, b⟩ := b
      obtain ⟨here, later⟩ := Bool.and_eq_true_iff.1 h
      obtain ⟨name, value⟩ := Bool.and_eq_true_iff.1 here
      rw [eq_of_beq name, eq_of_same free.1 value, eq_of_sameMembers free.2 later]

end

/-! ## Sorting -/

theorem mem_insertMember {name : String} {v : Value} {ms : List (String × Value)}
    {m : String × Value} (h : m ∈ insertMember name v ms) : m = (name, v) ∨ m ∈ ms := by
  induction ms with
  | nil => simpa [insertMember] using h
  | cons first rest ih =>
    obtain ⟨k, w⟩ := first
    rw [insertMember] at h
    split at h
    · simpa using h
    · split at h
      · rcases List.mem_cons.1 h with h | h
        · exact .inl h
        · exact .inr (by simp [h])
      · rcases List.mem_cons.1 h with h | h
        · exact .inr (by simp [h])
        · rcases ih h with h | h
          · exact .inl h
          · exact .inr (by simp [h])

/-- Sorting makes up no members. -/
theorem mem_of_mem_sortMembers {ms : List (String × Value)} {m : String × Value}
    (h : m ∈ sortMembers ms) : m ∈ ms := by
  suffices ∀ sorted : List (String × Value),
      m ∈ ms.foldl (fun sorted m => insertMember m.1 m.2 sorted) sorted → m ∈ sorted ∨ m ∈ ms by
    rcases this [] h with h | h
    · cases h
    · exact h
  clear h
  induction ms with
  | nil => exact fun sorted h => .inl h
  | cons first rest ih =>
    intro sorted h
    rcases ih _ h with h | h
    · rcases mem_insertMember h with rfl | h
      · exact .inr (by simp)
      · exact .inl h
    · exact .inr (by simp [h])

end Permit.Json.Value

namespace Permit.Json

/-! ## Lists in text -/

section Lists

variable {α : Type} (blanks : List Char) (text : α → List Char)

/-- The texts of items with commas between them, and blanks after each comma. -/
def listed : List α → List Char
  | [] => []
  | a :: rest => text a ++ rest.flatMap fun b => ',' :: (blanks ++ text b)

end Lists

theorem writeItems_eq (vs : List Value) : Value.writeItems vs = listed [] Value.write vs := by
  induction vs with
  | nil => rfl
  | cons v rest ih =>
    cases rest with
    | nil => simp [Value.writeItems, listed]
    | cons w rest => simp [Value.writeItems, ih, listed]

/-- The text of a member. -/
def memberText (m : String × Value) : List Char := quote m.1 ++ ':' :: m.2.write

theorem writeMembers_eq (ms : List (String × Value)) :
    Value.writeMembers ms = listed [] memberText ms := by
  induction ms with
  | nil => rfl
  | cons m rest ih =>
    obtain ⟨k, v⟩ := m
    cases rest with
    | nil => simp [Value.writeMembers, listed, memberText]
    | cons n rest => simp [Value.writeMembers, ih, listed, memberText]

end Permit.Json
