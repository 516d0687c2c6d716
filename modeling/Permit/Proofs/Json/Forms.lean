-- The forms of a value that gives fields: an object of them in any order, or an array of them in
-- their own. A strict record decodes what gives its fields so, and nothing else.
import Mathlib.Data.List.Forall2
import Permit.Proofs.Json.Records

namespace Permit.Json

variable {α β : Type}

/-- The value gives the fields: by name, as an object of them in any order, or by place, as an
array of what they hold. -/
inductive Gives (fields : List (String × Value)) : Value → Prop
  | named {ms} : ms.Perm fields → Gives fields (.obj ms)
  | listed : Gives fields (.arr (fields.map Prod.snd))

/-! ## Members of values -/

theorem toDraftItems_eq (vs : List Value) : Value.toDraftItems vs = vs.map Value.toDraft := by
  induction vs with
  | nil => rfl
  | cons v rest ih => rw [Value.toDraftItems, ih, List.map_cons]

theorem toDraftMembers_eq (ms : List (String × Value)) :
    Value.toDraftMembers ms = ms.map (Prod.map id Value.toDraft) := by
  induction ms with
  | nil => rfl
  | cons m rest ih =>
    rw [Value.toDraftMembers, ih, List.map_cons]
    rfl

theorem names_toDraftMembers (ms : List (String × Value)) :
    (Value.toDraftMembers ms).map Prod.fst = ms.map Prod.fst := by
  rw [toDraftMembers_eq, List.map_map]
  rfl

theorem mem_of_lookup {ms : List (String × Value)} {name : String} {draft : Draft}
    (h : Record.lookup (Value.toDraftMembers ms) name = some draft) :
    ∃ v, (name, v) ∈ ms ∧ draft = v.toDraft := by
  obtain ⟨m, found, rfl⟩ := Option.map_eq_some_iff.1 h
  have same : m.1 = name := by simpa using List.find?_some found
  have inside := List.mem_of_find?_eq_some found
  rw [toDraftMembers_eq] at inside
  obtain ⟨⟨k, v⟩, hv, rfl⟩ := List.mem_map.1 inside
  cases same
  exact ⟨v, hv, rfl⟩

theorem not_mem_of_lookup {ms : List (String × Value)} {name : String}
    (h : Record.lookup (Value.toDraftMembers ms) name = none) : name ∉ ms.map Prod.fst := by
  intro inside
  rw [← names_toDraftMembers] at inside
  obtain ⟨m, hm, same⟩ := List.mem_map.1 inside
  exact List.find?_eq_none.1 (Option.map_eq_none_iff.1 h) m hm (by simp [same])

/-- Of the members of an object that gives the fields each is found. -/
theorem lookup_of_perm {ms fields : List (String × Value)} (h : ms.Perm fields)
    (distinct : (fields.map Prod.fst).Nodup) {m : String × Value} (hm : m ∈ fields) :
    Record.lookup (Value.toDraftMembers ms) m.1 = some m.2.toDraft := by
  have once : ((Value.toDraftMembers ms).map Prod.fst).Nodup := by
    rw [names_toDraftMembers]
    exact (h.map Prod.fst).nodup_iff.2 distinct
  refine Record.lookup_of_mem (m := Prod.map id Value.toDraft m) once ?_
  rw [toDraftMembers_eq]
  exact List.mem_map_of_mem (h.mem_iff.2 hm)

theorem lookup_of_not_mem {ms : List (String × Value)} {name : String}
    (h : name ∉ ms.map Prod.fst) : Record.lookup (Value.toDraftMembers ms) name = none := by
  refine Option.map_eq_none_iff.2 (List.find?_eq_none.2 fun m hm => ?_)
  rintro same
  rw [← names_toDraftMembers] at h
  have same : m.1 = name := by simpa using same
  exact h (same ▸ List.mem_map_of_mem hm)

/-- Members whose names are distinct are in the order of any others that they include, if these
have the same names. -/
theorem perm_of_names {ms fields : List (String × Value)} (once : (ms.map Prod.fst).Nodup)
    (distinct : (fields.map Prod.fst).Nodup) (inside : fields ⊆ ms)
    (known : ms.map Prod.fst ⊆ fields.map Prod.fst) : ms.Perm fields := by
  rw [List.perm_ext_iff_of_nodup once.of_map distinct.of_map]
  refine fun m => ⟨fun hm => ?_, fun hm => inside hm⟩
  obtain ⟨f, hf, same⟩ := List.mem_map.1 (known (List.mem_map_of_mem hm))
  rwa [← List.inj_on_of_nodup_map once (inside hf) hm same]

theorem eq_of_names {ms fields : List (String × Value)} (once : (ms.map Prod.fst).Nodup)
    (same : ms.map Prod.fst = fields.map Prod.fst) (inside : fields ⊆ ms) : ms = fields := by
  induction ms generalizing fields with
  | nil => simpa using same.symm
  | cons m rest ih =>
    cases fields with
    | nil => cases same
    | cons f more =>
      obtain ⟨first, later⟩ := List.cons.inj same
      have here : f = m := List.inj_on_of_nodup_map once (inside (by simp)) (by simp) first.symm
      subst here
      rw [List.map_cons, List.nodup_cons] at once
      refine congrArg (f :: ·) (ih once.2 later fun g hg => ?_)
      rcases List.mem_cons.1 (inside (List.mem_cons_of_mem f hg)) with rfl | hg'
      · exact absurd (later ▸ List.mem_map_of_mem hg) once.1
      · exact hg'

/-- The first fields of a record at their places are the fields by name. -/
theorem zip_of_leads {names : List String} {fields : List (String × Value)}
    (leads : fields.map Prod.fst <+: names) :
    names.zip (Value.toDraftItems (fields.map Prod.snd)) = Value.toDraftMembers fields := by
  obtain ⟨more, rfl⟩ := leads
  induction fields with
  | nil => simp [Value.toDraftItems, Value.toDraftMembers]
  | cons f rest ih => simp [Value.toDraftItems, Value.toDraftMembers, ih]

theorem normalizeItems_eq (vs : List Value) : Value.normalizeItems vs = vs.map Value.normalize := by
  induction vs with
  | nil => rfl
  | cons v rest ih => rw [Value.normalizeItems, ih, List.map_cons]

/-! ## Strict records -/

namespace Record

variable {r : Record α} {wanted : String} {origin : Origin} {v : Value} {a : α}

/-- What a strict record decodes gives its fields: those that the record is built from, if they
are all that are there and lead the fields of the record. -/
theorem gives_of_decode (distinct : r.names.Nodup)
    (h : (r.toDecoder wanted true).decode origin v.toDraft = .ok a) :
    ∃ ms absent, r.build origin (lookup (Value.toDraftMembers ms)) absent = .ok a ∧
      ms.map Prod.fst ⊆ r.names ∧
      ∀ fields, fields.map Prod.fst <+: r.names → fields ⊆ ms →
        ms.map Prod.fst ⊆ fields.map Prod.fst → Gives fields v := by
  cases v with
  | obj ms =>
    obtain ⟨known, once, absent, built⟩ := of_decode_obj h
    rw [names_toDraftMembers] at known once
    refine ⟨ms, absent, built, known, fun fields leads inside all => .named ?_⟩
    exact perm_of_names once (distinct.sublist leads.sublist) inside all
  | arr vs =>
    obtain ⟨short, absent, built⟩ := of_decode_arr h
    have places : r.names.zip (Value.toDraftItems vs)
        = Value.toDraftMembers (r.names.zip vs) := by
      rw [toDraftItems_eq, toDraftMembers_eq, List.zip_map_right]
    have few : vs.length ≤ r.names.length := by
      simpa [toDraftItems_eq, names] using short
    have items : (r.names.zip vs).map Prod.snd = vs := List.map_snd_zip few
    have names : (r.names.zip vs).map Prod.fst = r.names.take vs.length := by
      rw [List.zip_eq_zip_take_min, List.map_fst_zip (by simp)]
      simp [few]
    rw [places] at built
    have once : ((r.names.zip vs).map Prod.fst).Nodup := by
      rw [names]
      exact distinct.sublist (List.take_sublist _ _)
    -- By place each field is where its name is in the record, so only leading fields are given.
    refine ⟨r.names.zip vs, absent, built, ?_, fun fields leads inside all => ?_⟩
    · rw [names]
      exact List.take_subset _ _
    · have perm := perm_of_names once (distinct.sublist leads.sublist) inside all
      have same : (r.names.zip vs).map Prod.fst = fields.map Prod.fst := by
        rw [names, List.prefix_iff_eq_take.1 leads, ← (perm.map Prod.fst).length_eq, names]
        simp [few]
      rw [← eq_of_names once same inside]
      conv_rhs => rw [← items]
      exact .listed
  | _ => simp [toDecoder, Value.toDraft, Decoder.wrongType, Draft.found?, Decoder.mismatch] at h

/-- What gives leading fields of a record is decoded as the record takes them. -/
theorem decode_of_gives {fields : List (String × Value)} (distinct : r.names.Nodup)
    (leads : fields.map Prod.fst <+: r.names) (given : Gives fields v)
    (takes : ∀ ms, ms.Perm fields → r.Takes origin (Value.toDraftMembers ms) a) (strict : Bool) :
    (r.toDecoder wanted strict).decode origin v.toDraft = .ok a := by
  cases given with
  | @named ms same =>
    have names := (same.map Prod.fst)
    refine (takes ms same).decode ?_ ?_ wanted strict
    · rw [names_toDraftMembers]
      exact fun k hk => leads.subset (names.mem_iff.1 hk)
    · rw [names_toDraftMembers, names.nodup_iff]
      exact distinct.sublist leads.sublist
  | listed =>
    have taken := takes fields (.refl fields)
    rw [← zip_of_leads leads] at taken
    refine taken.decode_items distinct ?_ wanted strict
    have few := leads.length_le
    simpa [toDraftItems_eq, names] using few

/-- A strict record of one field. -/
theorem decode_one_iff {name : String} {d : Decoder α} {f : α → β} {b : β} :
    (((required name d).map f).toDecoder wanted true).decode origin v.toDraft = .ok b ↔
      ∃ x a, Gives [(name, x)] v ∧ d.decode origin x.toDraft = .ok a ∧ f a = b := by
  have distinct : ((required name d).map f).names.Nodup := List.nodup_singleton name
  constructor
  · intro h
    obtain ⟨ms, absent, whole, known, gives⟩ := gives_of_decode distinct h
    obtain ⟨a, built, same⟩ := build_map_iff.1 whole
    rcases build_field_iff.1 built with ⟨draft, found, decoded⟩ | ⟨_, nothing⟩
    · obtain ⟨x, inside, rfl⟩ := mem_of_lookup found
      exact ⟨x, a, gives _ (List.prefix_refl _) (by simpa using inside) known, decoded, same⟩
    · cases nothing
  · rintro ⟨x, a, given, decoded, rfl⟩
    refine decode_of_gives distinct (List.prefix_refl _) given (fun ms same => ?_) true
    exact .map (.field (lookup_of_perm same (by simp) (List.mem_singleton_self _)) decoded) f

/-- A strict record of two fields, of which the second may be left out. -/
theorem decode_two_iff {first second : String} (apart : first ≠ second) {d : Decoder α}
    {e : Decoder β} {missing : β} {p : α × β} :
    (((required first d).and (field second e (some missing))).toDecoder wanted true).decode
        origin v.toDraft = .ok p ↔
      ∃ x, d.decode origin x.toDraft = .ok p.1 ∧
        (Gives [(first, x)] v ∧ missing = p.2 ∨
          ∃ y, Gives [(first, x), (second, y)] v ∧ e.decode origin y.toDraft = .ok p.2) := by
  have distinct : ((required first d).and (field second e (some missing))).names.Nodup := by
    simpa [names, Record.and, required, field] using apart
  constructor
  · intro h
    obtain ⟨ms, absent, whole, known, gives⟩ := gives_of_decode distinct h
    obtain ⟨built, more⟩ := build_and_iff.1 whole
    rcases build_field_iff.1 built with ⟨draft, found, decoded⟩ | ⟨_, nothing⟩
    · obtain ⟨x, inside, rfl⟩ := mem_of_lookup found
      refine ⟨x, decoded, ?_⟩
      rcases build_field_iff.1 more with ⟨draft, found, decoded⟩ | ⟨left, given⟩
      · obtain ⟨y, also, rfl⟩ := mem_of_lookup found
        refine .inr ⟨y, gives _ (List.prefix_refl _) ?_ known, decoded⟩
        simpa using ⟨inside, also⟩
      · have out := not_mem_of_lookup left
        refine .inl ⟨gives _ (List.prefix_append [first] [second]) (by simpa using inside) ?_,
          Option.some.inj given⟩
        intro k hk
        rcases List.mem_pair.1 (known hk) with rfl | rfl
        · simp
        · exact absurd hk out
    · cases nothing
  · obtain ⟨a, b⟩ := p
    rintro ⟨x, decoded, ⟨given, rfl⟩ | ⟨y, given, also⟩⟩
    · have leads : [(first, x)].map Prod.fst <+: [first, second] :=
        List.prefix_append [first] [second]
      refine decode_of_gives distinct leads given (fun ms same => ?_) true
      have out : second ∉ ms.map Prod.fst := by
        rw [(same.map Prod.fst).mem_iff]
        simpa using apart.symm
      exact .and (.field (lookup_of_perm same (by simp) (List.mem_singleton_self _)) decoded)
        (.missing (lookup_of_not_mem out))
    · refine decode_of_gives distinct (List.prefix_refl _) given (fun ms same => ?_) true
      have found {m} := lookup_of_perm same distinct (m := m)
      exact .and (.field (found (m := (first, x)) (by simp)) decoded)
        (.field (found (m := (second, y)) (by simp)) also)

end Record

/-! ## Lists -/

/-- A list decodes item by item, and nothing else is a list. -/
theorem decode_list_iff {d : Decoder α} {origin : Origin} {v : Value} {as : List α} :
    (Decoder.list d).decode origin v.toDraft = .ok as ↔
      ∃ vs, v = .arr vs ∧ List.Forall₂ (fun v a => d.decode origin v.toDraft = .ok a) vs as := by
  have items (vs : List Value) (as : List α) :
      Decoder.decodeAll (d.decode origin) (Value.toDraftItems vs) = .ok as ↔
        List.Forall₂ (fun v a => d.decode origin v.toDraft = .ok a) vs as := by
    induction vs generalizing as with
    | nil => cases as <;> simp [Value.toDraftItems, Decoder.decodeAll]
    | cons v rest ih =>
      rw [Value.toDraftItems, Decoder.decodeAll, List.forall₂_cons_left_iff]
      simp only [← ih]
      cases d.decode origin v.toDraft with
      | error e => simp
      | ok a =>
        cases Decoder.decodeAll (d.decode origin) (Value.toDraftItems rest) with
        | error e => simp [Except.map]
        | ok more => simp [Except.map, eq_comm]
  cases v with
  | arr vs =>
    have whole : (Decoder.list d).decode origin (Value.arr vs).toDraft
        = Decoder.decodeAll (d.decode origin) (Value.toDraftItems vs) := by
      simp only [Decoder.list, Value.toDraft]
      cases Decoder.decodeAll (d.decode origin) (Value.toDraftItems vs) <;> rfl
    rw [whole, items]
    simp
  | _ => simp [Decoder.list, Value.toDraft, Decoder.wrongType, Draft.found?, Decoder.mismatch]

/-- An array of one item decodes as that item, and nothing else is one. -/
theorem decode_single_iff {d : Decoder α} {origin : Origin} {v : Value} {a : α} :
    (Decoder.single d).decode origin v.toDraft = .ok a ↔
      ∃ w, v = .arr [w] ∧ d.decode origin w.toDraft = .ok a := by
  cases v with
  | arr vs =>
    match vs with
    | [] => simp [Decoder.single, Value.toDraft, Value.toDraftItems, Decoder.item,
        Decoder.mismatch, bind, Except.bind]
    | [w] =>
      cases read : d.decode origin w.toDraft <;>
        simp [Decoder.single, Value.toDraft, Value.toDraftItems, Decoder.item, read, bind,
          Except.bind, Decoder.endOfTuple, Decoder.unlessBroken]
    | w :: x :: rest =>
      cases read : d.decode origin w.toDraft <;>
        simp [Decoder.single, Value.toDraft, Value.toDraftItems, Decoder.item, read, bind,
          Except.bind, Decoder.endOfTuple, Decoder.mismatch]
  | _ => simp [Decoder.single, Value.toDraft, Decoder.wrongType, Draft.found?, Decoder.mismatch]

/-- A strict record of one list. -/
theorem Record.decode_one_list_iff {name wanted : String} {d : Decoder α} {f : List α → β}
    {origin : Origin} {v : Value} {b : β} :
    (((required name (.list d)).map f).toDecoder wanted true).decode origin v.toDraft = .ok b ↔
      ∃ vs as, Gives [(name, .arr vs)] v ∧
        List.Forall₂ (fun v a => d.decode origin v.toDraft = .ok a) vs as ∧ f as = b := by
  simp only [decode_one_iff, decode_list_iff]
  constructor
  · rintro ⟨_, as, given, ⟨vs, rfl, each⟩, same⟩
    exact ⟨vs, as, given, each, same⟩
  · rintro ⟨vs, as, given, each, same⟩
    exact ⟨_, as, given, ⟨vs, rfl, each⟩, same⟩

/-! ## Strings and values -/

theorem decode_string_iff {origin : Origin} {v : Value} {s : String} :
    Decoder.string.decode origin v.toDraft = .ok s ↔ v = .str s := by
  cases v <;>
    simp [Decoder.string, Value.toDraft, Decoder.wrongType, Draft.found?, Decoder.mismatch]

theorem decode_whole_iff {origin : Origin} {v w : Value} :
    Decoder.whole.decode origin v.toDraft = .ok w ↔ v.normalize = w := by
  simp [Decoder.whole, Value.settle_toDraft, Except.map]

theorem decode_values_iff {origin : Origin} {v : Value} {ws : List Value} :
    (Decoder.list .whole).decode origin v.toDraft = .ok ws ↔
      ∃ vs, v = .arr vs ∧ Value.normalizeItems vs = ws := by
  have each (vs : List Value) :
      List.Forall₂ (fun v w => v.normalize = w) vs ws ↔ Value.normalizeItems vs = ws := by
    rw [normalizeItems_eq, ← List.forall₂_eq_eq_eq]
    exact List.forall₂_map_left_iff.symm
  simp only [decode_list_iff, decode_whole_iff, each]

theorem decode_tryMap_iff {d : Decoder α} {f : α → Except Mismatch β}
    {origin : Origin} {draft : Draft} {b : β} :
    (d.tryMap f).decode origin draft = .ok b ↔
      ∃ a, d.decode origin draft = .ok a ∧ f a = .ok b := by
  simp only [Decoder.tryMap]
  cases d.decode origin draft with
  | error e => simp
  | ok a => cases settled : f a <;> simp [settled, Except.mapError]

end Permit.Json
