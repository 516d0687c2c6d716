-- How deep drafts nest: no deeper than the budget they were read with, and what a decoder takes
-- from a draft stands inside it.
import Permit.Json.Decoder.Record
import Permit.Proofs.Json.Records
import Permit.Proofs.Values

namespace Permit.Json

open Text

variable {α β : Type}

/-! ## The nesting of drafts -/

namespace Draft

mutual

/-- How many arrays and objects stand inside one another. -/
def depth : Draft → Nat
  | .arr items _ => depthItems items + 1
  | .obj members _ => depthMembers members + 1
  | _ => 0

def depthItems : List Draft → Nat
  | [] => 0
  | d :: rest => max (depth d) (depthItems rest)

def depthMembers : List (String × Draft) → Nat
  | [] => 0
  | (_, d) :: rest => max (depth d) (depthMembers rest)

end

theorem depthItems_le {ds : List Draft} {n : Nat} : depthItems ds ≤ n ↔ ∀ d ∈ ds, d.depth ≤ n := by
  induction ds with
  | nil => simp [depthItems]
  | cons d rest ih => rw [depthItems, Nat.max_le, ih, List.forall_mem_cons]

theorem depthMembers_le {ms : List (String × Draft)} {n : Nat} :
    depthMembers ms ≤ n ↔ ∀ m ∈ ms, m.2.depth ≤ n := by
  induction ms with
  | nil => simp [depthMembers]
  | cons m rest ih =>
    rw [depthMembers, Nat.max_le, ih, List.forall_mem_cons]

/-! ### Settling from the outside in -/

theorem settle_arr {items : List Draft} {broken : Option Failure} {v : Value}
    (h : settle (.arr items broken) = .ok v) :
    ∃ vs, settleItems items = .ok vs ∧ broken = none ∧ v = .arr vs := by
  rw [settle] at h
  split at h
  · cases h
  · next vs settled =>
    split at h
    · cases h
      exact ⟨vs, settled, rfl, rfl⟩
    · cases h

theorem settle_obj {members : List (String × Draft)} {broken : Option Failure} {v : Value}
    (h : settle (.obj members broken) = .ok v) :
    ∃ vs, settleMembers members = .ok vs ∧ broken = none ∧ v = .obj vs := by
  rw [settle] at h
  split at h
  · cases h
  · next vs settled =>
    split at h
    · cases h
      exact ⟨vs, settled, rfl, rfl⟩
    · cases h

theorem settleItems_cons {d : Draft} {ds : List Draft} {vs : List Value}
    (h : settleItems (d :: ds) = .ok vs) :
    ∃ v ws, d.settle = .ok v ∧ settleItems ds = .ok ws ∧ vs = v :: ws := by
  rw [settleItems] at h
  split at h
  · cases h
  · next v first =>
    cases later : settleItems ds with
    | error f => simp [later, Except.map] at h
    | ok ws => exact ⟨v, ws, first, rfl, by simpa [later, Except.map] using h.symm⟩

theorem settleMembers_cons {k : String} {d : Draft} {ms : List (String × Draft)}
    {vs : List (String × Value)} (h : settleMembers ((k, d) :: ms) = .ok vs) :
    ∃ v ws, d.settle = .ok v ∧ settleMembers ms = .ok ws ∧ vs = (k, v) :: ws := by
  rw [settleMembers] at h
  split at h
  · cases h
  · next v first =>
    cases later : settleMembers ms with
    | error f => simp [later, Except.map] at h
    | ok ws => exact ⟨v, ws, first, rfl, by simpa [later, Except.map] using h.symm⟩

mutual

/-- A value nests no deeper than the draft that it was read from. -/
theorem depth_settle : ∀ (d : Draft) {v : Value}, d.settle = .ok v → v.depth ≤ d.depth
  | .null, _, h | .bool _, _, h | .num _, _, h | .str _, _, h => by
    cases h
    exact Nat.zero_le _
  | .arr items broken, v, h => by
    obtain ⟨vs, settled, -, rfl⟩ := settle_arr h
    exact Nat.succ_le_succ (depth_settleItems items settled)
  | .obj members broken, v, h => by
    obtain ⟨vs, settled, -, rfl⟩ := settle_obj h
    exact Nat.succ_le_succ (depth_settleMembers members settled)
  | .failed _, _, h => by cases h

theorem depth_settleItems : ∀ (ds : List Draft) {vs : List Value},
    settleItems ds = .ok vs → Value.depthItems vs ≤ depthItems ds
  | [], vs, h => by
    cases h
    exact Nat.zero_le _
  | d :: rest, vs, h => by
    obtain ⟨v, ws, first, later, rfl⟩ := settleItems_cons h
    have := depth_settle d first
    have := depth_settleItems rest later
    simp only [Value.depthItems, depthItems]
    omega

theorem depth_settleMembers : ∀ (ms : List (String × Draft)) {vs : List (String × Value)},
    settleMembers ms = .ok vs → Value.depthMembers vs ≤ depthMembers ms
  | [], vs, h => by
    cases h
    exact Nat.zero_le _
  | (k, d) :: rest, vs, h => by
    obtain ⟨v, ws, first, later, rfl⟩ := settleMembers_cons h
    have := depth_settle d first
    have := depth_settleMembers rest later
    simp only [Value.depthMembers, depthMembers]
    omega

end

end Draft

/-! ## Reading within a budget -/

/-- Whatever the text, what is read of it nests at most so deep. -/
def Within (n : Nat) (read : List Glyph → Reading) : Prop := ∀ s, (read s).1.depth ≤ n

theorem Scanned.depth_toReading {f : α → Draft} (flat : ∀ a, (f a).depth = 0)
    (scanned : Scanned α) : (scanned.toReading f).1.depth = 0 := by
  unfold Scanned.toReading
  split
  · exact flat _
  · rfl

theorem depth_readWord (word : String) {d : Draft} (flat : d.depth = 0) (s : List Glyph) :
    (readWord word d s).1.depth = 0 := by
  unfold readWord
  split
  · exact flat
  · rfl

theorem depth_readScalar (s : List Glyph) : (readScalar s).1.depth = 0 := by
  unfold readScalar
  split
  · rfl
  · exact depth_readWord _ rfl _
  · exact depth_readWord _ rfl _
  · exact depth_readWord _ rfl _
  · exact Scanned.depth_toReading (fun _ => rfl) _
  · exact Scanned.depth_toReading (fun _ => rfl) _
  · split
    · exact Scanned.depth_toReading (fun _ => rfl) _
    · rfl

theorem depth_readSkipped (s : List Glyph) : (readSkipped s).1.depth = 0 := by
  unfold readSkipped
  split <;> rfl

section Lists

variable {n : Nat}

theorem depth_readItems {item : Nat → Option (List Glyph → Reading)}
    (each : ∀ i read, item i = some read → Within n read) (fuel i : Nat) (s : List Glyph) :
    ∀ d ∈ (readItems item fuel i s).1, d.depth ≤ n := by
  induction fuel generalizing i s with
  | zero => simp [readItems]
  | succ fuel ih =>
    rw [readItems]
    split
    · simp
    · next read found =>
      split
      · simp
      · next start _ =>
        have first := each i read found start
        split
        · next d same =>
          rw [same] at first
          simpa using first
        · next d rest same =>
          rw [same] at first
          exact List.forall_mem_cons.2 ⟨first, ih (i + 1) rest⟩

theorem depth_readAfterColon {read : List Glyph → Reading} (within : Within n read)
    (s : List Glyph) : (readAfterColon read s).1.depth ≤ n := by
  unfold readAfterColon
  split
  · exact Nat.zero_le n
  · exact within _
  · exact Nat.zero_le n

theorem depth_readMembers {value : String → List Glyph → Reading}
    (each : ∀ name, Within n (value name)) (fuel : Nat) (first : Bool) (s : List Glyph) :
    ∀ m ∈ (readMembers value fuel first s).1, m.2.depth ≤ n := by
  induction fuel generalizing first s with
  | zero => simp [readMembers]
  | succ fuel ih =>
    rw [readMembers]
    split
    · simp
    · split
      · simp
      · next name rest _ =>
        have member := depth_readAfterColon (each name) rest
        split
        · next d same =>
          rw [same] at member
          simpa using member
        · next d rest same =>
          rw [same] at member
          exact List.forall_mem_cons.2 ⟨member, ih false rest⟩

theorem within_readArray {item : Nat → Option (List Glyph → Reading)}
    (each : ∀ i read, item i = some read → Within n read) : Within (n + 1) (readArray item) :=
  fun s => Nat.succ_le_succ (Draft.depthItems_le.2 (depth_readItems each (s.length + 1) 0 s))

theorem within_readObject {value : String → List Glyph → Reading}
    (each : ∀ name, Within n (value name)) : Within (n + 1) (readObject value) :=
  fun s => Nat.succ_le_succ (Draft.depthMembers_le.2 (depth_readMembers each (s.length + 1) true s))

theorem within_readVariant {payload : String → List Glyph → Reading}
    (each : ∀ name, Within n (payload name)) : Within (n + 1) (readVariant payload) := by
  intro s
  unfold readVariant
  split
  · split
    · exact Nat.zero_le _
    · next name rest _ =>
      have member := depth_readAfterColon (each name) rest
      split
      · next d same =>
        rw [same] at member
        simpa [Draft.depth, Draft.depthMembers] using member
      · next d rest same =>
        rw [same] at member
        simpa [Draft.depth, Draft.depthMembers] using member
  · exact Nat.zero_le _
  · exact Nat.zero_le _
  · exact Nat.zero_le _

/-- A member that nobody looks at does not count. -/
theorem within_find? {read : Outline → List Glyph → Reading} (each : ∀ o, Within n (read o))
    (fields : List (String × Outline)) (name : String) :
    Within n (((Outline.find? name fields).map read).getD readSkipped) := by
  cases Outline.find? name fields with
  | none =>
    intro s
    have flat := depth_readSkipped s
    simp only [Option.map_none, Option.getD_none]
    omega
  | some o => exact each o

end Lists

/-- What is read along an outline nests within the budget. -/
theorem within_readValue (budget : Nat) (o : Outline) : Within budget (readValue budget o) := by
  have flat {n : Nat} {r : Reading} (h : r.1.depth = 0) : r.1.depth ≤ n := by omega
  induction budget using Nat.strongRecOn generalizing o with
  | _ n ih =>
    intro s
    unfold readValue
    dsimp only
    split
    · exact flat rfl
    · exact flat rfl
    · next m items rest _ =>
      refine within_readArray (fun i read found => ?_) rest
      obtain ⟨o, _, rfl⟩ := Option.map_eq_some_iff.1 found
      exact ih m (Nat.lt_succ_self m) o
    · next m members rest _ =>
      refine within_readArray (fun i read found => ?_) rest
      obtain ⟨o, _, rfl⟩ := Option.map_eq_some_iff.1 found
      exact ih m (Nat.lt_succ_self m) o.2
    · next m item rest _ =>
      refine within_readArray (fun i read found => ?_) rest
      obtain rfl := Option.some.inj found
      exact ih m (Nat.lt_succ_self m) item
    · next m members rest _ =>
      exact within_readObject (within_find? (ih m (Nat.lt_succ_self m)) members) rest
    · next m payloads rest _ =>
      exact within_readVariant (within_find? (ih m (Nat.lt_succ_self m)) payloads) rest
    · exact flat (Scanned.depth_toReading (fun _ => rfl) _)
    · exact flat rfl
    · exact flat rfl
    · next m rest _ _ _ _ _ =>
      refine within_readArray (fun i read found => ?_) rest
      obtain rfl := Option.some.inj found
      exact ih m (Nat.lt_succ_self m) .whole
    · next m rest _ _ _ =>
      exact within_readObject (fun _ => ih m (Nat.lt_succ_self m) .whole) rest
    · exact flat (depth_readScalar _)

theorem depth_readText (o : Outline) (text : List Glyph) :
    (readText o text).1.depth ≤ maxNesting := by
  have within := within_readValue maxNesting o text
  unfold readText
  split
  · next same =>
    rw [same] at within
    exact within
  · next same =>
    rw [same] at within
    split <;> exact within

/-! ## What stands inside -/

theorem bind_eq_ok {ε : Type} {x : Except ε α} {f : α → Except ε β} {b : β}
    (h : x >>= f = .ok b) : ∃ a, x = .ok a ∧ f a = .ok b := by
  cases x with
  | error e => cases h
  | ok a => exact ⟨a, rfl, h⟩

theorem unlessBroken_ok {broken : Option Failure} {a b : α}
    (h : Decoder.unlessBroken broken a = .ok b) : a = b := by
  unfold Decoder.unlessBroken at h
  split at h
  · exact Except.ok.inj h
  · cases h

theorem wrongType_ne_ok {wanted : String} {draft : Draft} {a : α} :
    Decoder.wrongType wanted draft ≠ .ok a := by
  unfold Decoder.wrongType
  split <;> exact nofun

/-- What was decoded from a text was decoded from a draft within the limit. -/
theorem Decoder.of_ofText {d : Decoder α} {text : List Glyph} {a : α} (h : d.ofText text = .ok a) :
    ∃ draft : Draft, draft.depth ≤ maxNesting ∧ d.decode .text draft = .ok a := by
  refine ⟨_, depth_readText d.outline text, ?_⟩
  simp only [Decoder.ofText] at h
  cases decoded : d.decode .text (readText d.outline text).1 with
  | error f => simp [decoded] at h
  | ok b =>
    simp only [decoded] at h
    split at h
    · exact h
    · cases h

namespace Record

/-- The draft that is found under a name is one of those that were looked at. -/
theorem exists_of_lookup {ms : List (String × Draft)} {name : String} {draft : Draft}
    (h : lookup ms name = some draft) : ∃ m ∈ ms, m.2 = draft := by
  obtain ⟨m, found, same⟩ := Option.map_eq_some_iff.1 h
  exact ⟨m, List.mem_of_find?_eq_some found, same⟩

/-- A record is built from drafts that stand inside its own. -/
theorem inside {r : Record α} {wanted : String} {strict : Bool} {origin : Origin}
    {draft : Draft} {a : α} (h : (r.toDecoder wanted strict).decode origin draft = .ok a) :
    ∃ draft? absent, r.build origin draft? absent = .ok a ∧
      ∀ name d, draft? name = some d → d.depth < draft.depth := by
  simp only [toDecoder] at h
  split at h
  · next ms broken =>
    obtain ⟨_, _, h⟩ := bind_eq_ok h
    obtain ⟨_, _, h⟩ := bind_eq_ok h
    refine ⟨_, _, h, fun name d found => ?_⟩
    obtain ⟨m, hm, rfl⟩ := exists_of_lookup found
    exact Nat.lt_succ_of_le (Draft.depthMembers_le.1 (Nat.le_refl _) m hm)
  · next items broken =>
    obtain ⟨_, _, h⟩ := bind_eq_ok h
    obtain ⟨b, built, last⟩ : ∃ b, r.build origin (lookup (r.names.zip items)) _ = .ok b ∧
        Decoder.endOfTuple origin r.fields.length items broken b = .ok a := by
      split at h
      · obtain ⟨_, _, h⟩ := bind_eq_ok h
        exact bind_eq_ok h
      · exact bind_eq_ok h
    refine ⟨_, _, built.trans ?_, fun name d found => ?_⟩
    · unfold Decoder.endOfTuple at last
      split at last
      · cases last
      · rw [unlessBroken_ok last]
    · obtain ⟨m, hm, rfl⟩ := exists_of_lookup found
      exact Nat.lt_succ_of_le
        (Draft.depthItems_le.1 (Nat.le_refl _) m.2 (List.of_mem_zip hm).2)
  · exact absurd h wrongType_ne_ok

end Record

theorem of_decodeAll {f : Draft → Except Failure α} {ds : List Draft} {as : List α}
    (h : Decoder.decodeAll f ds = .ok as) : ∀ a ∈ as, ∃ d ∈ ds, f d = .ok a := by
  induction ds generalizing as with
  | nil =>
    cases h
    simp
  | cons d rest ih =>
    rw [Decoder.decodeAll] at h
    split at h
    · cases h
    · next first =>
      cases later : Decoder.decodeAll f rest with
      | error e => simp [later, Except.map] at h
      | ok bs =>
        rw [later] at h
        cases h
        intro a ha
        rcases List.mem_cons.1 ha with rfl | ha
        · exact ⟨d, List.mem_cons_self, first⟩
        · obtain ⟨x, hx, decoded⟩ := ih later a ha
          exact ⟨x, List.mem_cons_of_mem d hx, decoded⟩

/-- The items of a list were decoded from drafts that stand inside its own. -/
theorem Decoder.list_inside {d : Decoder α} {origin : Origin} {draft : Draft} {as : List α}
    (h : (Decoder.list d).decode origin draft = .ok as) :
    ∃ n, draft.depth = n + 1 ∧ ∀ a ∈ as, ∃ x : Draft, x.depth ≤ n ∧ d.decode origin x = .ok a := by
  simp only [Decoder.list] at h
  split at h
  · next items broken =>
    split at h
    · cases h
    · next bs decoded =>
      obtain rfl := unlessBroken_ok h
      refine ⟨_, rfl, fun a ha => ?_⟩
      obtain ⟨x, hx, read⟩ := of_decodeAll decoded a ha
      exact ⟨x, Draft.depthItems_le.1 (Nat.le_refl _) x hx, read⟩
  · exact absurd h wrongType_ne_ok

/-- The list of a record of one list stands two levels inside. -/
theorem Record.one_list_inside {name wanted : String} {strict : Bool} {d : Decoder α}
    {f : List α → β} {origin : Origin} {draft : Draft} {b : β}
    (h : (((required name (.list d)).map f).toDecoder wanted strict).decode origin draft = .ok b) :
    ∃ n as, n + 2 ≤ draft.depth ∧ f as = b ∧
      ∀ a ∈ as, ∃ x : Draft, x.depth ≤ n ∧ d.decode origin x = .ok a := by
  obtain ⟨draft?, absent, whole, inside⟩ := Record.inside h
  obtain ⟨as, built, same⟩ := build_map_iff.1 whole
  obtain ⟨list, found, decoded⟩ | ⟨_, nothing⟩ := build_field_iff.1 built
  · obtain ⟨n, depth, each⟩ := Decoder.list_inside decoded
    have less := inside name list found
    exact ⟨n, as, by omega, same, each⟩
  · cases nothing

end Permit.Json
