-- The canonical form: normalizing puts every object in it, and changes nothing that is
-- in it already.
import Permit.Json.Value

namespace Permit.Json.Value

/-! ## One member -/

theorem lt_of_not_lt_of_ne {a b : String} (h : ¬ a < b) (hne : a ≠ b) : b < a := by
  apply Classical.byContradiction
  intro h'
  exact hne (String.le_antisymm (String.not_lt.1 h') (String.not_lt.1 h))

theorem mem_insertMember_names {name x : String} {v : Value} {ms : List (String × Value)}
    (h : x ∈ (insertMember name v ms).map Prod.fst) : x = name ∨ x ∈ ms.map Prod.fst := by
  induction ms with
  | nil => simpa [insertMember] using h
  | cons m rest ih =>
    obtain ⟨k, w⟩ := m
    simp only [insertMember] at h
    split at h
    · simpa using h
    · split at h
      · next hk =>
        subst hk
        simpa using h
      · rcases List.mem_cons.1 (by simpa only [List.map_cons] using h) with h | h
        · simp [h]
        · rcases ih h with h | h <;> simp [h]

/-- Setting a member keeps the names in order, each once. -/
theorem pairwise_insertMember {name : String} {v : Value} {ms : List (String × Value)}
    (h : (ms.map Prod.fst).Pairwise (· < ·)) :
    ((insertMember name v ms).map Prod.fst).Pairwise (· < ·) := by
  induction ms with
  | nil => simp [insertMember]
  | cons m rest ih =>
    obtain ⟨k, w⟩ := m
    simp only [List.map_cons, List.pairwise_cons] at h
    simp only [insertMember]
    split
    · next hlt =>
      simp only [List.map_cons, List.pairwise_cons, List.mem_cons]
      refine ⟨?_, h.1, h.2⟩
      rintro x (rfl | hx)
      · exact hlt
      · exact String.lt_trans hlt (h.1 x hx)
    · split
      · next heq =>
        subst heq
        simpa only [List.map_cons, List.pairwise_cons] using h
      · next hlt hne =>
        simp only [List.map_cons, List.pairwise_cons]
        refine ⟨fun x hx => ?_, ih h.2⟩
        rcases mem_insertMember_names hx with rfl | hx
        · exact lt_of_not_lt_of_ne hlt hne
        · exact h.1 x hx

theorem canonicalMembers_insertMember {name : String} {v : Value}
    {ms : List (String × Value)} (hv : v.Canonical) (h : CanonicalMembers ms) :
    CanonicalMembers (insertMember name v ms) := by
  induction ms with
  | nil => simp [insertMember, CanonicalMembers, hv]
  | cons m rest ih =>
    obtain ⟨k, w⟩ := m
    simp only [CanonicalMembers] at h
    simp only [insertMember]
    split
    · exact ⟨hv, h.1, h.2⟩
    · split
      · exact ⟨hv, h.2⟩
      · exact ⟨h.1, ih h.2⟩

/-! ## All members -/

theorem foldl_insertMember {ms sorted : List (String × Value)}
    (names : (sorted.map Prod.fst).Pairwise (· < ·)) (inner : CanonicalMembers sorted)
    (h : CanonicalMembers ms) :
    let result := ms.foldl (fun sorted m => insertMember m.1 m.2 sorted) sorted
    (result.map Prod.fst).Pairwise (· < ·) ∧ CanonicalMembers result := by
  induction ms generalizing sorted with
  | nil => exact ⟨names, inner⟩
  | cons m rest ih =>
    obtain ⟨k, v⟩ := m
    exact ih (pairwise_insertMember names) (canonicalMembers_insertMember h.1 inner) h.2

theorem canonical_sortMembers {ms : List (String × Value)} (h : CanonicalMembers ms) :
    (obj (sortMembers ms)).Canonical :=
  foldl_insertMember List.Pairwise.nil trivial h

/-! ## Whole values -/

mutual

theorem canonical_normalize : ∀ v : Value, v.normalize.Canonical
  | .null | .bool _ | .num _ | .str _ => by simp [normalize, Canonical]
  | .arr items => by
    simp only [normalize, Canonical]
    exact canonical_normalizeItems items
  | .obj members => by
    simp only [normalize]
    exact canonical_sortMembers (canonical_normalizeMembers members)

theorem canonical_normalizeItems : ∀ items, CanonicalItems (normalizeItems items)
  | [] => trivial
  | v :: rest => ⟨canonical_normalize v, canonical_normalizeItems rest⟩

theorem canonical_normalizeMembers : ∀ members, CanonicalMembers (normalizeMembers members)
  | [] => trivial
  | (_, v) :: rest => ⟨canonical_normalize v, canonical_normalizeMembers rest⟩

end

theorem canonicalItems_iff {items : List Value} :
    CanonicalItems items ↔ ∀ v ∈ items, v.Canonical := by
  induction items with
  | nil => simp [CanonicalItems]
  | cons v rest ih => simp [CanonicalItems, ih]

/-- Every item of a normalized list is in canonical form. -/
theorem canonical_of_mem_normalizeItems {items : List Value} :
    ∀ v ∈ normalizeItems items, v.Canonical :=
  canonicalItems_iff.1 (canonical_normalizeItems items)

/-- A member that comes after all others goes to the end. -/
theorem insertMember_last {name : String} {v : Value} {ms : List (String × Value)}
    (h : ∀ k ∈ ms.map Prod.fst, k < name) : insertMember name v ms = ms ++ [(name, v)] := by
  induction ms with
  | nil => rfl
  | cons m rest ih =>
    obtain ⟨k, w⟩ := m
    simp only [List.map_cons, List.mem_cons, forall_eq_or_imp] at h
    have hlt : ¬ name < k := fun h' => String.lt_irrefl _ (String.lt_trans h' h.1)
    have hne : name ≠ k := fun h' => String.lt_irrefl k (h' ▸ h.1)
    simp [insertMember, hlt, hne, ih h.2]

/-- Members that are in order already stay as they are. -/
theorem sortMembers_of_pairwise {ms : List (String × Value)}
    (h : (ms.map Prod.fst).Pairwise (· < ·)) : sortMembers ms = ms := by
  suffices ∀ sorted : List (String × Value),
      ((sorted ++ ms).map Prod.fst).Pairwise (· < ·) →
      ms.foldl (fun sorted m => insertMember m.1 m.2 sorted) sorted = sorted ++ ms by
    have whole := this [] h
    rwa [List.nil_append] at whole
  clear h
  induction ms with
  | nil => simp
  | cons m rest ih =>
    obtain ⟨k, v⟩ := m
    intro sorted h
    have hlast : ∀ x ∈ sorted.map Prod.fst, x < k := by
      intro x hx
      rw [List.map_append, List.pairwise_append] at h
      exact h.2.2 x hx k (by simp)
    simp only [List.foldl_cons, insertMember_last hlast]
    rw [ih (sorted ++ [(k, v)]) (by simpa using h)]
    simp

mutual

/-- A value in canonical form is left alone. -/
theorem normalize_of_canonical : ∀ v : Value, v.Canonical → v.normalize = v
  | .null, _ | .bool _, _ | .num _, _ | .str _, _ => by simp [normalize]
  | .arr items, h => by
    simp only [Canonical] at h
    rw [normalize, normalizeItems_of_canonical items h]
  | .obj members, h => by
    simp only [Canonical] at h
    rw [normalize, normalizeMembers_of_canonical members h.2, sortMembers_of_pairwise h.1]

theorem normalizeItems_of_canonical :
    ∀ items, CanonicalItems items → normalizeItems items = items
  | [], _ => rfl
  | v :: rest, h => by
    rw [normalizeItems, normalize_of_canonical v h.1, normalizeItems_of_canonical rest h.2]

theorem normalizeMembers_of_canonical :
    ∀ members, CanonicalMembers members → normalizeMembers members = members
  | [], _ => rfl
  | (_, v) :: rest, h => by
    rw [normalizeMembers, normalize_of_canonical v h.1, normalizeMembers_of_canonical rest h.2]

end

end Permit.Json.Value
