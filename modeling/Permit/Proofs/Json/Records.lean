-- Records: an object whose members are known, each once and each good, is built from its
-- members, and a member that its field rejects makes the record reject the object.
import Mathlib.Data.List.Nodup
import Permit.Json.Decoder.Record

namespace Permit.Json.Record

variable {α β : Type}

/-! ## Looking at members -/

/-- Of members whose names differ each is the first of its name. -/
theorem lookup_of_mem {ms : List (String × Draft)} (once : (ms.map Prod.fst).Nodup)
    {m : String × Draft} (hm : m ∈ ms) : lookup ms m.1 = some m.2 := by
  induction ms with
  | nil => cases hm
  | cons first rest ih =>
    rw [List.map_cons, List.nodup_cons] at once
    unfold lookup
    rcases List.mem_cons.1 hm with rfl | hm
    · simp
    · have other : first.1 ≠ m.1 := by
        intro same
        exact once.1 (same ▸ List.mem_map_of_mem hm)
      rw [List.find?_cons_of_neg (by simpa using other)]
      exact ih once.2 hm

/-- Members that are known, new and good pass. -/
theorem checkMembers_ok {r : Record α} (strict : Bool) {origin : Origin}
    {ms : List (String × Draft)} (each : ∀ m ∈ ms, ∃ f,
      r.fields.find? (fun f => f.name == m.1) = some f ∧ f.check origin m.2 = .ok ())
    {seen : List String} (once : (seen ++ ms.map Prod.fst).Nodup) :
    r.checkMembers strict origin seen ms = .ok () := by
  induction ms generalizing seen with
  | nil => rfl
  | cons m rest ih =>
    obtain ⟨name, draft⟩ := m
    obtain ⟨f, found, good⟩ := each (name, draft) (by simp)
    have new : ¬ seen.contains name = true := by
      rw [List.map_cons, List.nodup_append] at once
      intro old
      exact once.2.2 name (List.contains_iff_mem.1 old) name (by simp) rfl
    have later : (name :: seen ++ rest.map Prod.fst).Nodup := by
      rw [List.map_cons] at once
      exact List.nodup_middle.1 once
    unfold checkMembers
    simp only [found]
    rw [if_neg new, good]
    exact ih (fun n hn => each n (by simp [hn])) later

/-- A known member whose field rejects it is not passed over. -/
theorem checkMembers_error {r : Record α} (strict : Bool) {origin : Origin} {k : String}
    {d : Draft} {field : Field} (found : r.fields.find? (fun f => f.name == k) = some field)
    {f : Failure} (h : field.check origin d = .error f) (before : List (String × Draft))
    (seen : List String) :
    ∃ f, r.checkMembers strict origin seen (before ++ [(k, d)]) = .error f := by
  induction before generalizing seen with
  | nil =>
    unfold checkMembers
    simp only [List.nil_append, found, h]
    split
    · exact ⟨_, rfl⟩
    · exact ⟨f, rfl⟩
  | cons first before ih =>
    obtain ⟨l, first⟩ := first
    rw [List.cons_append]
    unfold checkMembers
    split
    · split
      · exact ⟨_, rfl⟩
      · split
        · next e _ => exact ⟨e, rfl⟩
        · exact ih _
    · split
      · exact ⟨_, rfl⟩
      · split
        · next e => exact ⟨e, rfl⟩
        · exact ih _

/-! ## Taking fields from members -/

/-- The record takes the value from the members: its fields are good as far as they are
there, and the value is what is built. -/
structure Takes (r : Record α) (origin : Origin) (ms : List (String × Draft)) (a : α) : Prop where
  good : ∀ f ∈ r.fields, ∀ d, lookup ms f.name = some d → f.check origin d = .ok ()
  built : ∀ absent, r.build origin (lookup ms) absent = .ok a

namespace Takes

variable {origin : Origin} {ms : List (String × Draft)}

theorem field {name : String} {d : Decoder α} {missing : Option α} {draft : Draft} {a : α}
    (found : lookup ms name = some draft) (decoded : d.decode origin draft = .ok a) :
    (Record.field name d missing).Takes origin ms a where
  good f hf draft' found' := by
    rw [List.mem_singleton.1 hf] at found' ⊢
    rw [found] at found'
    rw [← Option.some.inj found']
    simp only [decoded]
    rfl
  built absent := by
    simp only [Record.field, found, decoded]

theorem and {r : Record α} {s : Record β} {a : α} {b : β} (first : r.Takes origin ms a)
    (second : s.Takes origin ms b) : (r.and s).Takes origin ms (a, b) where
  good f hf := by
    rcases List.mem_append.1 hf with hf | hf
    · exact first.good f hf
    · exact second.good f hf
  built absent := by
    simp only [Record.and, first.built, second.built]
    rfl

theorem map {r : Record α} {a : α} (h : r.Takes origin ms a) (f : α → β) :
    (r.map f).Takes origin ms (f a) where
  good := h.good
  built absent := by
    simp only [Record.map, h.built]
    rfl

/-- What a record takes from the members of an object is what it decodes, if each member is
known and comes once. -/
theorem decode {r : Record α} {a : α} (h : r.Takes origin ms a)
    (known : ms.map Prod.fst ⊆ r.names) (once : (ms.map Prod.fst).Nodup) (wanted : String)
    (strict : Bool) : (r.toDecoder wanted strict).decode origin (.obj ms none) = .ok a := by
  have each : ∀ m ∈ ms, ∃ f, r.fields.find? (fun f => f.name == m.1) = some f ∧
      f.check origin m.2 = .ok () := by
    intro m hm
    obtain ⟨g, hg, same⟩ := List.mem_map.1 (known (List.mem_map_of_mem hm))
    cases found : r.fields.find? (fun f => f.name == m.1) with
    | none => exact absurd (List.find?_eq_none.1 found g hg) (by simp [same])
    | some f =>
      have name : f.name = m.1 := by simpa using List.find?_some found
      refine ⟨f, rfl, h.good f (List.mem_of_find?_eq_some found) m.2 ?_⟩
      rw [name]
      exact lookup_of_mem once hm
  have passed : r.checkMembers strict origin [] ms = .ok () := checkMembers_ok strict each once
  simp only [toDecoder, ofMembers, passed]
  exact h.built _

/-- A field that is not there is taken as what stands for it. -/
theorem missing {name : String} {d : Decoder α} {a : α} (absent : lookup ms name = none) :
    (Record.field name d (some a)).Takes origin ms a where
  good f hf draft found := by
    rw [List.mem_singleton.1 hf, absent] at found
    cases found
  built _ := by simp only [Record.field, absent]

/-- Items that are good for the fields at their places pass. -/
theorem checkItems_ok {fields : List Field} {items : List Draft}
    (each : ∀ p ∈ fields.zip items, p.1.check origin p.2 = .ok ()) :
    checkItems origin fields items = .ok () := by
  induction fields generalizing items with
  | nil => simp [checkItems]
  | cons f fields ih =>
    cases items with
    | nil => simp [checkItems]
    | cons draft rest =>
      have first : f.check origin draft = .ok () := each (f, draft) (by simp)
      rw [checkItems, first]
      exact ih fun p hp => each p (by simp [hp])

/-- What a record takes from its names with the items of an array is what it decodes. -/
theorem decode_items {r : Record α} {items : List Draft} {a : α}
    (h : r.Takes origin (r.names.zip items) a) (distinct : r.names.Nodup)
    (short : items.length ≤ r.fields.length) (wanted : String) (strict : Bool) :
    (r.toDecoder wanted strict).decode origin (.arr items none) = .ok a := by
  have once : ((r.names.zip items).map Prod.fst).Nodup := by
    rw [List.zip_eq_zip_take_min, List.map_fst_zip (by simp)]
    exact distinct.sublist (List.take_sublist _ _)
  have good : checkItems origin r.fields items = .ok () := by
    refine checkItems_ok fun p hp => ?_
    have named : (p.1.name, p.2) ∈ r.names.zip items := by
      rw [names, List.zip_map_left]
      exact List.mem_map.2 ⟨p, hp, rfl⟩
    exact h.good p.1 (List.of_mem_zip hp).1 p.2 (lookup_of_mem once named)
  have whole : ¬ r.fields.length < items.length := Nat.not_lt.2 short
  simp [toDecoder, ofItems, good, h.built, Decoder.endOfTuple, whole, Decoder.unlessBroken,
    bind, Except.bind]

end Takes

/-! ## What a decoded record says -/

theorem of_checkMembers {r : Record α} {origin : Origin} {ms : List (String × Draft)}
    {seen : List String} (h : r.checkMembers true origin seen ms = .ok ()) :
    (∀ k ∈ ms.map Prod.fst, k ∈ r.names ∧ k ∉ seen) ∧ (ms.map Prod.fst).Nodup := by
  induction ms generalizing seen with
  | nil => simp
  | cons m rest ih =>
    obtain ⟨name, draft⟩ := m
    unfold checkMembers at h
    split at h
    · next f found =>
      split at h
      · cases h
      · next new =>
        split at h
        · cases h
        · obtain ⟨later, once⟩ := ih h
          have known : name ∈ r.names := by
            have same : f.name = name := by simpa using List.find?_some found
            exact same ▸ List.mem_map_of_mem (List.mem_of_find?_eq_some found)
          have unseen : name ∉ seen := by simpa using new
          rw [List.map_cons, List.forall_mem_cons, List.nodup_cons]
          refine ⟨⟨⟨known, unseen⟩, fun k hk => ?_⟩, fun again => ?_, once⟩
          · exact ⟨(later k hk).1, fun old => (later k hk).2 (List.mem_cons_of_mem _ old)⟩
          · exact (later name again).2 List.mem_cons_self
    · cases h

/-- The members of an object that a strict record decodes are known, each comes once, and the
record is built from them. -/
theorem of_decode_obj {r : Record α} {wanted : String} {origin : Origin}
    {ms : List (String × Draft)} {a : α}
    (h : (r.toDecoder wanted true).decode origin (.obj ms none) = .ok a) :
    ms.map Prod.fst ⊆ r.names ∧ (ms.map Prod.fst).Nodup ∧
      ∃ absent, r.build origin (lookup ms) absent = .ok a := by
  cases checked : r.checkMembers true origin [] ms with
  | error e => simp [toDecoder, ofMembers, checked, bind, Except.bind] at h
  | ok _ =>
    obtain ⟨known, once⟩ := of_checkMembers checked
    simp only [toDecoder, ofMembers, checked] at h
    exact ⟨fun k hk => (known k hk).1, once, _, h⟩

/-- An array that a record decodes has no more items than the record has fields, and the record
is built from them by place. -/
theorem of_decode_arr {r : Record α} {wanted : String} {strict : Bool} {origin : Origin}
    {items : List Draft} {a : α}
    (h : (r.toDecoder wanted strict).decode origin (.arr items none) = .ok a) :
    items.length ≤ r.fields.length ∧
      ∃ absent, r.build origin (lookup (r.names.zip items)) absent = .ok a := by
  simp only [toDecoder, ofItems, Decoder.unlessBroken, bind, Except.bind, ite_self] at h
  split at h
  · cases h
  · split at h
    · cases h
    · next built =>
      unfold Decoder.endOfTuple at h
      split at h
      · cases h
      · next short =>
        cases h
        exact ⟨Nat.not_lt.1 short, _, built⟩

section Building

variable {origin : Origin} {draft? : String → Option Draft} {absent : String → Failure}

theorem build_field_iff {name : String} {d : Decoder α} {missing : Option α} {a : α} :
    (field name d missing).build origin draft? absent = .ok a ↔
      (∃ draft, draft? name = some draft ∧ d.decode origin draft = .ok a) ∨
        draft? name = none ∧ missing = some a := by
  cases found : draft? name with
  | some draft => simp [field, found]
  | none => cases missing <;> simp [field, found]

theorem build_and_iff {r : Record α} {s : Record β} {p : α × β} :
    (r.and s).build origin draft? absent = .ok p ↔
      r.build origin draft? absent = .ok p.1 ∧ s.build origin draft? absent = .ok p.2 := by
  obtain ⟨a, b⟩ := p
  cases first : r.build origin draft? absent with
  | error e => simp [and, first]
  | ok x => cases second : s.build origin draft? absent <;> simp [and, first, second, Except.map]

theorem build_map_iff {r : Record α} {f : α → β} {b : β} :
    (r.map f).build origin draft? absent = .ok b ↔
      ∃ a, r.build origin draft? absent = .ok a ∧ f a = b := by
  cases built : r.build origin draft? absent <;> simp [map, built, Except.map]

end Building

end Permit.Json.Record
