-- Decoders that look at the whole of a value: they decode its text as they decode the value as it
-- is read, and reject the text if the value nests too deep.
import Permit.Criteria.Document
import Permit.Proofs.Json.Reading
import Permit.Proofs.Json.Records

namespace Permit.Json

open Text

variable {α β : Type}

/-! ## Drafts that were given up -/

theorem decodeAll_cut {decode : Draft → Except Failure α} {d : Draft} {f : Failure}
    (h : decode d = .error f) (before : List Draft) :
    ∃ f, Decoder.decodeAll decode (before ++ [d]) = .error f := by
  induction before with
  | nil => exact ⟨f, by simp [Decoder.decodeAll, h]⟩
  | cons first before ih =>
    obtain ⟨g, rest⟩ := ih
    rw [List.cons_append, Decoder.decodeAll]
    cases decode first with
    | error e => exact ⟨e, rfl⟩
    | ok a => exact ⟨g, by simp [rest, Except.map]⟩

theorem settleItems_eq (ds : List Draft) :
    Draft.settleItems ds = Decoder.decodeAll Draft.settle ds := by
  induction ds with
  | nil => rfl
  | cons d rest ih =>
    rw [Draft.settleItems, Decoder.decodeAll, ih]
    cases d.settle <;> rfl

theorem settleMembers_cut {d : Draft} {f : Failure} (h : d.settle = .error f) (k : String)
    (before : List (String × Draft)) :
    ∃ f, Draft.settleMembers (before ++ [(k, d)]) = .error f := by
  induction before with
  | nil => exact ⟨f, by simp [Draft.settleMembers, h]⟩
  | cons first before ih =>
    obtain ⟨g, rest⟩ := ih
    obtain ⟨l, first⟩ := first
    rw [List.cons_append, Draft.settleMembers]
    cases first.settle with
    | error e => exact ⟨e, rfl⟩
    | ok v => exact ⟨g, by simp [rest, Except.map]⟩

/-- A draft that was given up is no value. -/
theorem CutShort.settle {v : Value} {d : Draft} (cut : CutShort v d) :
    ∃ f, d.settle = .error f := by
  induction cut with
  | here v f => exact ⟨f, by rw [Draft.settle]⟩
  | item before _ _ ih =>
    obtain ⟨f, inner⟩ := ih
    obtain ⟨g, items⟩ := decodeAll_cut inner before
    exact ⟨g, by simp [Draft.settle, settleItems_eq, items]⟩
  | @member before _ k _ _ _ _ ih =>
    obtain ⟨f, inner⟩ := ih
    obtain ⟨g, members⟩ := settleMembers_cut inner k before
    exact ⟨g, by simp [Draft.settle, members]⟩

/-! ## Decoders that look at the whole -/

/-- The outline of the decoder covers the value, and a draft of it that was given up is
rejected. -/
structure Covers (d : Decoder α) (v : Value) : Prop where
  reads : ∀ budget, Reads (readValue budget d.outline) budget v
  rejects : ∀ origin draft, CutShort v draft → ∃ f, d.decode origin draft = .error f

namespace Covers

/-- The text of the value decodes as the value that is read, or is rejected if the value nests
deeper than the limit or has a float. -/
theorem ofText {d : Decoder α} {v : Value} (h : Covers d v) :
    (v.depth ≤ maxNesting ∧ d.ofText (ofString v.text) = d.decode .text v.reread.toDraft) ∨
    (¬ (v.depth ≤ maxNesting ∧ v.Integral) ∧ ∃ f, d.ofText (ofString v.text) = .error f) := by
  have text : ofString v.text = v.write.map .char ++ [] := by
    simp [ofString, Value.text]
  unfold Decoder.ofText readText
  rw [text]
  obtain ⟨shallow, whole⟩ | ⟨beyond, draft, cut, given⟩ := h.reads maxNesting [] .text
  · refine .inl ⟨shallow, ?_⟩
    rw [whole]
    simp only [skipSpace]
    cases d.decode .text v.reread.toDraft <;> rfl
  · obtain ⟨f, rejected⟩ := h.rejects .text draft cut
    refine .inr ⟨beyond, f, ?_⟩
    rw [given]
    simp only [rejected]

theorem string (s : String) : Covers .string (.str s) where
  reads budget := .whole budget _
  rejects origin draft cut := by
    cases cut with
    | here _ f => exact ⟨f, rfl⟩

theorem bool (b : Bool) : Covers .bool (.bool b) where
  reads budget := .whole budget _
  rejects origin draft cut := by
    cases cut with
    | here _ f => exact ⟨f, rfl⟩

theorem list {d : Decoder α} {vs : List Value} (each : ∀ v ∈ vs, Covers d v) :
    Covers (.list d) (.arr vs) where
  reads := .list fun budget v hv => (each v hv).reads budget
  rejects origin draft cut := by
    cases cut with
    | here _ f => exact ⟨f, rfl⟩
    | item before hv cut =>
      obtain ⟨f, inner⟩ := (each _ hv).rejects origin _ cut
      obtain ⟨g, items⟩ := decodeAll_cut inner before
      exact ⟨g, by simp [Decoder.list, items]⟩

/-- A field looks at its value as its decoder does. -/
theorem check {d : Decoder α} {v : Value} (h : Covers d v) :
    Covers ⟨d.outline, fun origin draft => (d.decode origin draft).map fun _ => ()⟩ v where
  reads := h.reads
  rejects origin draft cut := by
    obtain ⟨f, rejected⟩ := h.rejects origin draft cut
    exact ⟨f, by simp [rejected, Except.map]⟩

theorem find?_outline (name : String) (fields : List Field) :
    Outline.find? name (fields.map fun f => (f.name, f.outline))
      = (fields.find? fun f => f.name == name).map Field.outline := by
  induction fields with
  | nil => rfl
  | cons f rest ih =>
    rw [List.map_cons, Outline.find?, List.find?_cons]
    by_cases here : f.name = name
    · simp [here]
    · simp [here, beq_eq_false_iff_ne.2 here, ih]

/-- A record covers an object if each member is known and its field covers it. -/
theorem record {r : Record α} {ms : List (String × Value)}
    (each : ∀ m ∈ ms, ∃ f, r.fields.find? (fun f => f.name == m.1) = some f ∧
      Covers ⟨f.outline, f.check⟩ m.2) (wanted : String) (strict : Bool) :
    Covers (r.toDecoder wanted strict) (.obj ms) where
  reads := by
    refine .record fun m hm => ?_
    obtain ⟨f, found, covers⟩ := each m hm
    exact ⟨f.outline, by rw [find?_outline, found]; rfl, covers.reads⟩
  rejects origin draft cut := by
    cases cut with
    | here _ f => exact ⟨f, rfl⟩
    | member before hm cut =>
      obtain ⟨field, found, covers⟩ := each _ hm
      obtain ⟨f, inner⟩ := covers.rejects origin _ cut
      obtain ⟨g, members⟩ := Record.checkMembers_error strict found inner before []
      exact ⟨g, by simp [Record.toDecoder, Record.ofMembers, members, bind, Except.bind]⟩

/-! ## Documents -/

theorem node (leaf : Decoder α) (v : Value) : Covers (Criteria.nodeDecoder leaf) v where
  reads budget := .whole budget v
  rejects origin draft cut := by
    obtain ⟨f, settled⟩ := cut.settle
    exact ⟨f, by simp [Criteria.nodeDecoder, settled]⟩

theorem conjunction (leaf : Decoder α) (vs : List Value) :
    Covers (Criteria.conjunctionDecoder leaf) (Criteria.allOf vs) := by
  have items : Covers (.list (Criteria.nodeDecoder leaf)) (.arr vs) :=
    .list fun v _ => .node leaf v
  refine .record (fun m hm => ?_) _ _
  rw [List.mem_singleton.1 hm]
  exact ⟨_, rfl, items.check⟩

theorem document (leaf : Decoder α) (vss : List (List Value)) :
    Covers (Criteria.decoder leaf) (Criteria.anyOf (vss.map Criteria.allOf)) := by
  have items : Covers (.list (Criteria.conjunctionDecoder leaf))
      (.arr (vss.map Criteria.allOf)) := by
    refine .list fun v hv => ?_
    obtain ⟨vs, _, rfl⟩ := List.mem_map.1 hv
    exact .conjunction leaf vs
  refine .record (fun m hm => ?_) _ _
  rw [List.mem_singleton.1 hm]
  exact ⟨_, rfl, items.check⟩

end Covers

/-- The decoder covers the value, and that is read as it is. -/
structure Follows (d : Decoder α) (v : Value) : Prop extends Covers d v where
  integral : v.Integral

/-- The text of the value decodes as the value does if it nests within the limit, and is
rejected if not. -/
theorem Follows.ofText {d : Decoder α} {v : Value} (h : Follows d v) :
    (v.depth ≤ maxNesting → d.ofText (ofString v.text) = d.decode .text v.toDraft) ∧
    (maxNesting < v.depth → ∃ f, d.ofText (ofString v.text) = .error f) := by
  obtain ⟨shallow, read⟩ | ⟨beyond, rejected⟩ := h.toCovers.ofText
  · rw [Value.reread_of_integral h.integral] at read
    exact ⟨fun _ => read, fun deep => absurd shallow (by omega)⟩
  · exact ⟨fun shallow => absurd ⟨shallow, h.integral⟩ beyond, fun _ => rejected⟩

end Permit.Json
