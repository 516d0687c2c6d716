-- No table of a TOML document has a name twice. Entries are added only under new names, and a
-- change at the end of a path puts the changed tables back in their old places.
import Mathlib.Data.List.Nodup
import Permit.Toml.Document

namespace Permit.Toml

/-! ## Members -/

section Put

variable {β : Type} {name : String} {v : β} {members : List (String × β)}

theorem mem_of_lookup {v : β} (h : members.lookup name = some v) : (name, v) ∈ members := by
  obtain ⟨before, after, rfl, _⟩ := List.lookup_eq_some_iff.1 h
  exact List.mem_append_right _ List.mem_cons_self

theorem not_mem_of_lookup (h : members.lookup name = none) : name ∉ members.map Prod.fst := by
  intro inside
  obtain ⟨m, hm, rfl⟩ := List.mem_map.1 inside
  simpa using List.lookup_eq_none_iff.1 h m hm

theorem lookup_of_not_mem (h : name ∉ members.map Prod.fst) : members.lookup name = none := by
  cases found : members.lookup name with
  | none => rfl
  | some v => exact absurd (List.mem_map_of_mem (mem_of_lookup found)) h

/-- A member stands once, with others before and after it. -/
theorem split_at_lookup (once : (members.map Prod.fst).Nodup)
    (h : members.lookup name = some v) :
    ∃ before after, members = before ++ (name, v) :: after ∧
      (∀ m ∈ before, m.1 ≠ name) ∧ ∀ m ∈ after, m.1 ≠ name := by
  obtain ⟨before, after, rfl, notBefore⟩ := List.lookup_eq_some_iff.1 h
  refine ⟨before, after, rfl, fun m hm eq => by simpa [eq] using notBefore m hm, ?_⟩
  rintro m hm rfl
  rw [List.map_append, List.map_cons, List.nodup_append] at once
  exact (List.nodup_cons.1 once.2.1).1 (List.mem_map.2 ⟨m, hm, rfl⟩)

theorem mem_of_mem_put {m : String × β} (h : m ∈ put name v members) :
    m = (name, v) ∨ m ∈ members := by
  induction members with
  | nil => simpa [put] using h
  | cons first rest ih =>
    obtain ⟨k, w⟩ := first
    rw [put] at h
    split at h
    · rcases List.mem_cons.1 h with h | h
      · exact .inl h
      · exact .inr (List.mem_cons_of_mem _ h)
    · rcases List.mem_cons.1 h with rfl | h
      · exact .inr List.mem_cons_self
      · exact (ih h).imp_right (List.mem_cons_of_mem _)

theorem nodup_put (once : (members.map Prod.fst).Nodup) :
    ((put name v members).map Prod.fst).Nodup := by
  induction members with
  | nil => simp [put]
  | cons first rest ih =>
    obtain ⟨k, w⟩ := first
    rw [List.map_cons, List.nodup_cons] at once
    rw [put]
    split
    · next same =>
      rw [List.map_cons, List.nodup_cons, ← same]
      exact once
    · next other =>
      rw [List.map_cons, List.nodup_cons]
      refine ⟨fun inside => ?_, ih once.2⟩
      obtain ⟨m, hm, named⟩ := List.mem_map.1 inside
      rcases mem_of_mem_put hm with rfl | hm
      · exact other named.symm
      · exact once.1 (named ▸ List.mem_map_of_mem hm)

end Put

/-! ## Tables without a name twice -/

/-- No table in the value has a name twice. -/
inductive Distinct : Value → Prop
  | string (s : String) : Distinct (.string s)
  | integer (i : Int) : Distinct (.integer i)
  | float (x : Extended) : Distinct (.float x)
  | boolean (b : Bool) : Distinct (.boolean b)
  | moment (text : String) : Distinct (.moment text)
  | array {isOpen : Bool} {items : List Value} : (∀ v ∈ items, Distinct v) →
      Distinct (.array isOpen items)
  | table {kind : TableKind} {members : Members} : (members.map Prod.fst).Nodup →
      (∀ m ∈ members, Distinct m.2) → Distinct (.table kind members)

/-- The members have different names, and no table in them has a name twice. -/
structure DistinctMembers (members : Members) : Prop where
  names : (members.map Prod.fst).Nodup
  values : ∀ m ∈ members, Distinct m.2

theorem distinctMembers_nil : DistinctMembers [] where
  names := List.nodup_nil
  values _ h := by cases h

theorem Distinct.members {kind : TableKind} {members : Members}
    (h : Distinct (.table kind members)) : DistinctMembers members := by
  cases h with
  | table names values => exact ⟨names, values⟩

theorem Distinct.items {isOpen : Bool} {items : List Value} (h : Distinct (.array isOpen items)) :
    ∀ v ∈ items, Distinct v := by
  cases h with
  | array each => exact each

namespace DistinctMembers

variable {members : Members} {name : String} {v : Value}

theorem table (h : DistinctMembers members) (kind : TableKind) : Distinct (.table kind members) :=
  .table h.names h.values

theorem of_lookup (h : DistinctMembers members) (found : members.lookup name = some v) :
    Distinct v :=
  h.values _ (mem_of_lookup found)

theorem put (h : DistinctMembers members) (hv : Distinct v) :
    DistinctMembers (put name v members) where
  names := nodup_put h.names
  values m hm := by
    rcases mem_of_mem_put hm with rfl | hm
    · exact hv
    · exact h.values m hm

/-- A new member stands at the end. -/
theorem snoc (h : DistinctMembers members) (new : members.lookup name = none) (hv : Distinct v) :
    DistinctMembers (members ++ [(name, v)]) where
  names := by
    rw [List.map_append, List.nodup_append]
    refine ⟨h.names, by simp, fun k inside other last => ?_⟩
    rintro rfl
    rw [List.map_singleton, List.mem_singleton] at last
    subst last
    exact not_mem_of_lookup new inside
  values m hm := by
    rcases List.mem_append.1 hm with hm | hm
    · exact h.values m hm
    · rw [List.mem_singleton.1 hm]
      exact hv

end DistinctMembers

/-! ## Changes on a path -/

/-- A change of a table leaves its names distinct. -/
def KeepsDistinct (change : TableKind → Members → Option (TableKind × Members)) : Prop :=
  ∀ kind members kind' members', DistinctMembers members →
    change kind members = some (kind', members') → DistinctMembers members'

theorem keepsDistinct_within {change : TableKind → Members → Option (TableKind × Members)}
    (kept : KeepsDistinct change) (dotted : Bool) (path : List String) :
    KeepsDistinct (within dotted change path) := by
  induction path with
  | nil => exact kept
  | cons name path ih =>
    intro kind members kind' members' distinct h
    have inside {inner : TableKind × Members} {outer : TableKind} {ms : Members}
        (hm : DistinctMembers ms)
        (changed : within dotted change path outer ms = some inner) :
        Distinct (.table inner.1 inner.2) := (ih _ _ _ _ hm changed).table _
    rw [within] at h
    split at h
    · obtain ⟨inner, changed, same⟩ := Option.map_eq_some_iff.1 h
      cases same
      exact distinct.put (inside distinctMembers_nil changed)
    · next found =>
      split at h
      · cases h
      · obtain ⟨inner, changed, same⟩ := Option.map_eq_some_iff.1 h
        cases same
        exact distinct.put (inside (distinct.of_lookup found).members changed)
    · next items found =>
      -- The last table of an open array takes its own place again.
      have each := (distinct.of_lookup found).items
      split at h
      · next last =>
        obtain ⟨inner, changed, same⟩ := Option.map_eq_some_iff.1 h
        cases same
        have hm := (each _ (List.mem_of_getLast? last)).members
        refine distinct.put (.array fun v hv => ?_)
        rcases List.mem_append.1 hv with hv | hv
        · exact each v (List.dropLast_subset items hv)
        · rw [List.mem_singleton.1 hv]
          exact inside hm changed
      · cases h
    · cases h

theorem DistinctMembers.addEntry {path : List String} {name : String} {v : Value}
    {members members' : Members} (h : DistinctMembers members) (hv : Distinct v)
    (added : addEntry path name v members = some members') : DistinctMembers members' := by
  obtain ⟨⟨kind, out⟩, changed, rfl⟩ := Option.map_eq_some_iff.1 added
  refine keepsDistinct_within (fun kind inner kind' inner' distinct change => ?_) _ _ _ _ _ _ h
    changed
  split at change
  · cases change
  · next new =>
    cases change
    rw [not_or, Option.not_isSome_iff_eq_none] at new
    exact distinct.snoc new.2 hv

theorem DistinctMembers.addEntries {entries : List Entry} {members members' : Members}
    (h : DistinctMembers members) (each : ∀ e ∈ entries, Distinct e.value)
    (added : addEntries members entries = some members') : DistinctMembers members' := by
  induction entries generalizing members with
  | nil =>
    cases added
    exact h
  | cons e rest ih =>
    rw [Toml.addEntries] at added
    split at added
    · cases added
    · next first =>
      exact ih (h.addEntry (each e List.mem_cons_self) first)
        (fun x hx => each x (List.mem_cons_of_mem e hx)) added

/-! ## Values that are read -/

/-- What a reader yields satisfies the property. -/
def Yields {α : Type} (P : α → Prop) (read : List Char → Option (α × List Char)) : Prop :=
  ∀ s a rest, read s = some (a, rest) → P a

theorem yields_items {α : Type} {P : α → Prop} {close : Char}
    {item : List Char → Option (α × List Char)} (each : Yields P item) (fuel : Nat) :
    Yields (fun as => ∀ a ∈ as, P a) (items? close item fuel) := by
  induction fuel with
  | zero => intro s as rest h; cases h
  | succ fuel ih =>
    intro s as rest h
    rw [items?] at h
    split at h
    · cases h
    · cases h
    · split at h
      · cases h
        intro a ha
        cases ha
      · split at h
        · cases h
        · next first =>
          split at h
          · obtain ⟨⟨more, end_⟩, later, same⟩ := Option.map_eq_some_iff.1 h
            cases same
            intro a ha
            rcases List.mem_cons.1 ha with rfl | ha
            · exact each _ _ _ first
            · exact ih _ _ _ later a ha
          · split at h
            · cases h
              intro a ha
              rw [List.mem_singleton.1 ha]
              exact each _ _ _ first
            · cases h
          · cases h

theorem distinct_number {w : List Char} {v : Value} (h : number? w = some v) : Distinct v := by
  unfold number? at h
  split at h
  · split at h
    · cases h
      exact .integer _
    · cases h
  · obtain ⟨x, _, rfl⟩ := Option.map_eq_some_iff.1 h
    exact .float x

theorem distinct_word {w : List Char} {v : Value} (h : valueOfWord? w = some v) :
    Distinct v := by
  unfold valueOfWord? at h
  split at h
  · cases h
    exact .boolean _
  · split at h
    · cases h
      exact .boolean _
    · split at h
      · cases h
        exact .moment _
      · exact distinct_number h

theorem yields_scalar : Yields Distinct scalar? := by
  have word (s : List Char) (v : Value) (rest : List Char)
      (h : (valueOfWord? (word s).1).map (·, (Toml.word s).2) = some (v, rest)) :
      Distinct v := by
    obtain ⟨x, read, same⟩ := Option.map_eq_some_iff.1 h
    cases same
    exact distinct_word read
  intro s v rest h
  unfold scalar? at h
  split at h
  · obtain ⟨x, _, same⟩ := Option.map_eq_some_iff.1 h
    cases same
    exact .string _
  · obtain ⟨x, _, same⟩ := Option.map_eq_some_iff.1 h
    cases same
    exact .string _
  · exact word _ _ _ h

section Entries

variable {value : List Char → Option (Value × List Char)}

theorem yields_entryOf (each : Yields Distinct value) :
    Yields (fun e => Distinct e.value) (entryOf? value) := by
  intro s e rest h
  unfold entryOf? at h
  split at h
  · obtain ⟨x, read, same⟩ := Option.map_eq_some_iff.1 h
    cases same
    exact each _ _ _ read
  · cases h

theorem yields_bracedEntryOf (each : Yields Distinct value) :
    Yields (fun e => Distinct e.value) (bracedEntryOf? value) := by
  intro s e rest h
  unfold bracedEntryOf? at h
  split at h
  · cases h
  · split at h
    · split at h
      · cases h
      · obtain ⟨x, read, same⟩ := Option.map_eq_some_iff.1 h
        cases same
        exact each _ _ _ read
    · cases h

end Entries

theorem yields_value (budget : Nat) : Yields Distinct (value? budget) := by
  induction budget with
  | zero =>
    intro s v rest h
    unfold value? at h
    split at h
    · cases h
    · cases h
    · next none_left => cases none_left
    · next none_left => cases none_left
    · exact yields_scalar _ _ _ h
  | succ budget ih =>
    intro s v rest h
    unfold value? at h
    split at h
    · cases h
    · cases h
    · next left =>
      cases left
      obtain ⟨x, read, same⟩ := Option.map_eq_some_iff.1 h
      cases same
      exact .array (yields_items ih _ _ _ _ read)
    · next left =>
      cases left
      split at h
      · cases h
      · next entries _ read =>
        obtain ⟨members, added, same⟩ := Option.map_eq_some_iff.1 h
        cases same
        have each := yields_items (yields_bracedEntryOf ih) _ _ _ _ read
        exact (distinctMembers_nil.addEntries each added).table _
    · exact yields_scalar _ _ _ h

/-! ## Whole documents -/

/-- The value of an assignment has no table with a name twice; headers have no value. -/
def Statement.Good : Statement → Prop
  | .entry e => Distinct e.value
  | .header _ | .arrayHeader _ => True

theorem yields_statement : Yields Statement.Good statement? := by
  intro s st rest h
  unfold statement? at h
  split at h
  · split at h
    · cases h
      trivial
    · cases h
  · split at h
    · cases h
      trivial
    · cases h
  · obtain ⟨⟨e, end_⟩, read, same⟩ := Option.map_eq_some_iff.1 h
    cases same
    exact yields_entryOf (yields_value _) _ _ _ read

theorem good_of_statementsFrom {fuel : Nat} {s : List Char} {sts : List Statement}
    (h : statementsFrom? fuel s = some sts) : ∀ st ∈ sts, st.Good := by
  induction fuel generalizing s sts with
  | zero => cases h
  | succ fuel ih =>
    rw [statementsFrom?] at h
    split at h
    · cases h
    · cases h
      intro st hst
      cases hst
    · split at h
      · cases h
      · next first =>
        split at h
        · obtain ⟨more, later, rfl⟩ := Option.map_eq_some_iff.1 h
          intro st hst
          rcases List.mem_cons.1 hst with rfl | hst
          · exact yields_statement _ _ _ first
          · exact ih later st hst
        · cases h

theorem good_sections {sts : List Statement} (h : ∀ st ∈ sts, st.Good) :
    (∀ e ∈ (sections sts).1, Distinct e.value) ∧
      ∀ s ∈ (sections sts).2, ∀ e ∈ s.entries, Distinct e.value := by
  induction sts with
  | nil => simp [sections]
  | cons st rest ih =>
    obtain ⟨entries, more⟩ := ih fun x hx => h x (List.mem_cons_of_mem st hx)
    have under (key : Key) (inArray : Bool) :
        ∀ s ∈ (⟨key, inArray, (sections rest).1⟩ : Section) :: (sections rest).2,
          ∀ e ∈ s.entries, Distinct e.value := by
      intro s hs
      rcases List.mem_cons.1 hs with rfl | hs
      · exact entries
      · exact more s hs
    cases st with
    | header key => exact ⟨fun _ none_yet => absurd none_yet List.not_mem_nil, under key false⟩
    | arrayHeader key => exact ⟨fun _ none_yet => absurd none_yet List.not_mem_nil, under key true⟩
    | entry e =>
      refine ⟨fun x hx => ?_, more⟩
      rcases List.mem_cons.1 hx with rfl | hx
      · exact h _ List.mem_cons_self
      · exact entries x hx

theorem DistinctMembers.addTable {name : String} {entries : List Entry}
    {members members' : Members} (h : DistinctMembers members)
    (each : ∀ e ∈ entries, Distinct e.value)
    (added : addTable name entries members = some members') : DistinctMembers members' := by
  obtain ⟨inner, grown, rfl⟩ := Option.map_eq_some_iff.1 added
  obtain ⟨earlier, found, grown⟩ := Option.bind_eq_some_iff.1 grown
  refine h.put (DistinctMembers.table ?_ _)
  split at found
  · cases found
    exact distinctMembers_nil.addEntries each grown
  · next there =>
    cases found
    exact (h.of_lookup there).members.addEntries each grown
  · cases found

theorem DistinctMembers.addToArray {name : String} {entries : List Entry}
    {members members' : Members} (h : DistinctMembers members)
    (each : ∀ e ∈ entries, Distinct e.value)
    (added : addToArray name entries members = some members') : DistinctMembers members' := by
  unfold Toml.addToArray at added
  dsimp only at added
  split at added
  · next items inner found grown =>
    cases added
    have last := (distinctMembers_nil.addEntries each grown).table .headed
    refine h.put (.array fun v hv => ?_)
    rcases List.mem_append.1 hv with hv | hv
    · split at found
      · cases found
        cases hv
      · next there =>
        cases found
        exact (h.of_lookup there).items v hv
      · cases found
    · rw [List.mem_singleton.1 hv]
      exact last
  · cases added

theorem DistinctMembers.addSections {ss : List Section} {members members' : Members}
    (h : DistinctMembers members) (each : ∀ s ∈ ss, ∀ e ∈ s.entries, Distinct e.value)
    (added : addSections members ss = some members') : DistinctMembers members' := by
  induction ss generalizing members with
  | nil =>
    cases added
    exact h
  | cons s rest ih =>
    rw [Toml.addSections] at added
    split at added
    · cases added
    · next members₁ first =>
      refine ih ?_ (fun x hx => each x (List.mem_cons_of_mem s hx)) added
      obtain ⟨⟨kind, out⟩, changed, rfl⟩ := Option.map_eq_some_iff.1 first
      refine keepsDistinct_within (fun kind parent kind' parent' distinct change => ?_) _ _ _ _ _ _
        h changed
      obtain ⟨grown, step, same⟩ := Option.map_eq_some_iff.1 change
      cases same
      split at step
      · exact distinct.addToArray (each s List.mem_cons_self) step
      · exact distinct.addTable (each s List.mem_cons_self) step

/-- No table of a document has a name twice. -/
theorem distinct_document {text : String} {members : Members}
    (h : document? text = some members) : DistinctMembers members := by
  unfold document? at h
  split at h
  · cases h
  · next sts read =>
    have each : ∀ st ∈ sts, st.Good := by
      unfold statements? at read
      exact good_of_statementsFrom read
    obtain ⟨entries, more⟩ := good_sections each
    dsimp only at h
    split at h
    · cases h
    · next first =>
      exact (distinctMembers_nil.addEntries entries first).addSections more h

end Permit.Toml
