-- Messages as JSON values: a decision or a request that was sent as a value is read back with
-- its names and with the groups of a document, and what was read is read back as it is.
import Permit.Proofs.Documents
import Permit.Proofs.Json.Forms
import Permit.Resolution.Message

namespace Permit

open Json

variable {α : Type}

/-! ## Members in order -/

namespace Json.Value

/-- A new member is put among the others. -/
theorem insertMember_perm {name : String} (v : Value) {ms : List (String × Value)}
    (new : name ∉ ms.map Prod.fst) : (insertMember name v ms).Perm ((name, v) :: ms) := by
  induction ms with
  | nil => exact .refl _
  | cons m rest ih =>
    obtain ⟨k, w⟩ := m
    obtain ⟨other, later⟩ : name ≠ k ∧ name ∉ rest.map Prod.fst := by simpa using new
    unfold insertMember
    by_cases first : name < k
    · rw [if_pos first]
    · rw [if_neg first, if_neg other]
      exact ((ih later).cons (k, w)).trans (.swap _ _ _)

/-- Members that come once each are put in order, and none is lost. -/
theorem sortMembers_perm {ms : List (String × Value)} (once : (ms.map Prod.fst).Nodup) :
    (sortMembers ms).Perm ms := by
  suffices ∀ sorted : List (String × Value), ((sorted ++ ms).map Prod.fst).Nodup →
      (ms.foldl (fun sorted m => insertMember m.1 m.2 sorted) sorted).Perm (sorted ++ ms) from
    this [] once
  clear once
  induction ms with
  | nil => simp
  | cons m rest ih =>
    intro sorted once
    have moved : (sorted ++ m :: rest).Perm ((m :: sorted) ++ rest) := List.perm_middle
    have names : (((m :: sorted) ++ rest).map Prod.fst).Nodup := (moved.map _).nodup_iff.1 once
    have new : m.1 ∉ sorted.map Prod.fst := by
      rw [List.map_append, List.nodup_append, List.map_cons, List.nodup_cons] at names
      exact names.1.1
    have put := (insertMember_perm m.2 new).append_right rest
    rw [List.foldl_cons]
    exact ((ih _ ((put.map _).nodup_iff.2 names)).trans put).trans moved.symm

theorem normalizeMembers_eq (ms : List (String × Value)) :
    normalizeMembers ms = ms.map (Prod.map id normalize) := by
  induction ms with
  | nil => rfl
  | cons m rest ih =>
    rw [normalizeMembers, ih, List.map_cons]
    rfl

/-- The canonical form of an object has the canonical forms of its members. -/
theorem normalize_obj {ms : List (String × Value)} (once : (ms.map Prod.fst).Nodup) :
    ∃ ns, (obj ms).normalize = .obj ns ∧ ns.Perm (ms.map (Prod.map id normalize)) := by
  have names : ((ms.map (Prod.map id normalize)).map Prod.fst).Nodup := by
    rw [List.map_map]
    exact once
  refine ⟨_, by rw [normalize, normalizeMembers_eq], sortMembers_perm names⟩

end Json.Value

/-! ## Objects with members in any order -/

/-- A record decodes what it takes from members, in whatever order they come. -/
theorem Json.Record.decode_of_perm {r : Record α} {origin : Origin} {a : α}
    {ms fields : List (String × Value)} (same : ms.Perm fields)
    (distinct : (fields.map Prod.fst).Nodup) (known : fields.map Prod.fst ⊆ r.names)
    (takes : r.Takes origin (Value.toDraftMembers ms) a) (wanted : String) (strict : Bool) :
    (r.toDecoder wanted strict).decode origin (Value.obj ms).toDraft = .ok a := by
  have names := same.map Prod.fst
  refine takes.decode ?_ ?_ wanted strict
  · rw [names_toDraftMembers]
    exact fun k hk => known (names.mem_iff.1 hk)
  · rw [names_toDraftMembers]
    exact names.nodup_iff.2 distinct

namespace Json.Variants

variable {variants : Variants α} {tag name : String} {origin : Origin} {payload : Payload α}

/-- Members that are not the tag are set aside as they are. -/
theorem splitMembers_others (chosen : Option (Payload α)) {ms : List (String × Value)}
    (untagged : tag ∉ ms.map Prod.fst) :
    splitMembers variants tag origin chosen (Value.toDraftMembers ms) = .ok (chosen, ms) := by
  induction ms with
  | nil => rfl
  | cons m rest ih =>
    obtain ⟨k, v⟩ := m
    obtain ⟨other, later⟩ : tag ≠ k ∧ tag ∉ rest.map Prod.fst := by simpa using untagged
    rw [Value.toDraftMembers, splitMembers, if_neg other.symm, v.settle_toDraft, ih later]
    rfl

/-- The tag is found wherever it stands, and the members around it are set aside. -/
theorem splitMembers_tag (selected : variants.select name = .ok payload)
    {before after : List (String × Value)} (first : tag ∉ before.map Prod.fst)
    (last : tag ∉ after.map Prod.fst) :
    splitMembers variants tag origin none
        (Value.toDraftMembers (before ++ (tag, .str name) :: after))
      = .ok (some payload, before ++ after) := by
  induction before with
  | nil =>
    have chosen : variants.ofTag origin (.str name) = .ok payload := by
      cases origin <;> exact selected
    have rest : splitMembers variants tag origin (some payload) (Value.toDraftMembers after)
        = .ok (some payload, after) := splitMembers_others _ last
    simp [Value.toDraftMembers, Value.toDraft, splitMembers, chosen, rest]
  | cons m before ih =>
    obtain ⟨k, v⟩ := m
    obtain ⟨other, later⟩ : tag ≠ k ∧ tag ∉ before.map Prod.fst := by simpa using first
    rw [List.cons_append, Value.toDraftMembers, splitMembers, if_neg other.symm, v.settle_toDraft,
      ih later]
    rfl

/-- A tagged choice is decoded from its tag and its other members, in whatever order they
come. -/
theorem decode_of_perm {fields ms : List (String × Value)} {a : α}
    (same : ms.Perm ((tag, .str name) :: fields))
    (distinct : (((tag, Value.str name) :: fields).map Prod.fst).Nodup)
    (selected : variants.select name = .ok payload)
    (decoded : ∀ others, others.Perm fields →
      payload.ofTagged (Value.obj others).toDraft = .ok a) (wanted : String) :
    (variants.toTaggedDecoder tag wanted).decode origin (Value.obj ms).toDraft = .ok a := by
  obtain ⟨before, after, rfl⟩ := List.append_of_mem (same.mem_iff.2 List.mem_cons_self)
  have moved := List.perm_middle.symm.trans same
  have once := (moved.map Prod.fst).nodup_iff.2 distinct
  rw [List.map_cons, List.nodup_cons, List.map_append, List.mem_append, not_or] at once
  have split : splitMembers variants tag origin none
      (Value.toDraftMembers (before ++ (tag, .str name) :: after))
      = .ok (some payload, before ++ after) := splitMembers_tag selected once.1.1 once.1.2
  simp only [toTaggedDecoder, Value.toDraft, split]
  exact decoded _ moved.cons_inv

end Json.Variants

/-! ## Criteria that arrive -/

namespace Criteria

/-- The tree `c'` is what arrives when `c` is sent: the groups of a document stand around the same
leaves, no decision sees that, and what arrived arrives as it is when it is sent in turn. -/
structure Arrives (c c' : Criteria Condition) : Prop where
  trip : LeafForm.condition.trip c = .ok c'
  leaves : c'.leaves = c.leaves
  decides {ε : Type} (decide : Condition → Except ε Bool) :
    c'.tryEvaluate decide = c.tryEvaluate decide ∧ c'.walk decide = c.walk decide
  again : LeafForm.condition.trip c' = .ok c'

theorem arrives_asDocument (c : Criteria Condition) : c.Arrives c.asDocument := by
  have trip : LeafForm.condition.trip c = .ok c.asDocument := LeafForm.faithful_condition.trip_eq c
  refine ⟨trip, regroup.leaves_run c, fun decide => ?_, ?_⟩
  · exact ⟨regroup.tryEvaluate_run decide c, regroup.walk_run decide c⟩
  · rw [LeafForm.trip, LeafForm.value, toJson_asDocument]
    exact trip

/-- A member that holds criteria is read with the groups of a document. -/
theorem decode_sent (c : Criteria Condition) (origin : Origin) :
    conditionsDecoder.decode origin c.conditionsJson.normalize.toDraft = .ok c.asDocument := by
  have reads := LeafForm.faithful_condition
  rw [conditionsJson, normalize_toJson]
  exact decode_toJson (fun k _ => node?_of_leaf (reads.reads k) (reads.apart k)) origin

theorem conditionsJson_asDocument (c : Criteria Condition) :
    c.asDocument.conditionsJson = c.conditionsJson := toJson_asDocument Condition.toJson c

end Criteria

/-! ## Messages that arrive -/

/-- A decision with conditions arrives with its names and with conditions that arrive. -/
structure ConditionalDecision.Arrives (d d' : ConditionalDecision) : Prop where
  pluginId : d'.pluginId = d.pluginId
  resourceType : d'.resourceType = d.resourceType
  conditions : d.conditions.Arrives d'.conditions

/-- A decision arrives as one of the same kind. -/
inductive PolicyDecision.Arrives : PolicyDecision → PolicyDecision → Prop
  | allow : Arrives .allow .allow
  | deny : Arrives .deny .deny
  | conditional {d d'} : d.Arrives d' → Arrives (.conditional d) (.conditional d')

structure ApplyRequest.Arrives (r r' : ApplyRequest) : Prop where
  resourceRef : r'.resourceRef = r.resourceRef
  resourceType : r'.resourceType = r.resourceType
  conditions : r.conditions.Arrives r'.conditions

/-- A request without a reference arrives without one. -/
structure ResolveRequest.Arrives (r r' : ResolveRequest) : Prop where
  resourceRef : r'.resourceRef = r.resourceRef
  resourceType : r'.resourceType = r.resourceType
  filters : r.filters.Arrives r'.filters

/-! ## Sent members -/

/-- A field takes its member from an object that was sent. -/
theorem Json.Record.Takes.of_sent {ms fields : List (String × Value)}
    (same : ms.Perm (fields.map (Prod.map id Value.normalize)))
    (distinct : (fields.map Prod.fst).Nodup) {name : String} {v : Value} (hm : (name, v) ∈ fields)
    {d : Decoder α} {missing : Option α} {origin : Origin} {a : α}
    (decoded : d.decode origin v.normalize.toDraft = .ok a) :
    (Record.field name d missing).Takes origin (Value.toDraftMembers ms) a := by
  have names : ((fields.map (Prod.map id Value.normalize)).map Prod.fst).Nodup := by
    rw [List.map_map]
    exact distinct
  have sent : (name, v.normalize) ∈ fields.map (Prod.map id Value.normalize) :=
    List.mem_map.2 ⟨_, hm, rfl⟩
  exact .field (lookup_of_perm same names sent) decoded

namespace ConditionalDecision

/-- The members of a sent decision are read in whatever order they come. -/
theorem decode_sent (d : ConditionalDecision) {ms : List (String × Value)}
    (same : ms.Perm (d.members.map (Prod.map id Value.normalize))) (origin : Origin) :
    decoder.decode origin (Value.obj ms).toDraft
      = .ok ⟨d.pluginId, d.resourceType, d.conditions.asDocument⟩ := by
  have distinct : (d.members.map Prod.fst).Nodup := by simp [members]
  refine Record.decode_of_perm same (by simp [members]) (by simp [members, Record.names,
    Record.map, Record.and, Record.required, Record.field]) (.map (.and ?_ (.and ?_ ?_)) _) _ _
  · exact .of_sent (v := .str d.pluginId) same distinct (by simp [members]) rfl
  · exact .of_sent (v := .str d.resourceType) same distinct (by simp [members]) rfl
  · exact .of_sent same distinct (by simp [members]) (d.conditions.decode_sent origin)

end ConditionalDecision

namespace PolicyDecision

theorem ofValue_unconditional :
    decoder.ofValue (toJson .allow).normalize = .ok .allow ∧
      decoder.ofValue (toJson .deny).normalize = .ok .deny := ⟨rfl, rfl⟩

theorem ofValue_conditional (d : ConditionalDecision) :
    decoder.ofValue (toJson (.conditional d)).normalize
      = .ok (.conditional ⟨d.pluginId, d.resourceType, d.conditions.asDocument⟩) := by
  have distinct : ((("result", Value.str "CONDITIONAL") :: d.members).map Prod.fst).Nodup := by
    simp [ConditionalDecision.members]
  obtain ⟨ns, sent, same⟩ := Value.normalize_obj distinct
  rw [toJson, sent]
  refine Variants.decode_of_perm same ?_ rfl (fun others rest => ?_) _
  · simp [ConditionalDecision.members]
  · have read := d.decode_sent rest .buffer
    simp only [Payload.ofTagged, Decoder.map, read]
    rfl

end PolicyDecision

theorem ApplyRequest.ofValue_sent (r : ApplyRequest) :
    decoder.ofValue r.toJson.normalize
      = .ok ⟨r.resourceRef, r.resourceType, r.conditions.asDocument⟩ := by
  have distinct : ([("resourceRef", Value.str r.resourceRef), ("resourceType", .str r.resourceType),
      ("conditions", r.conditions.conditionsJson)].map Prod.fst).Nodup := by simp
  obtain ⟨ms, sent, same⟩ := Value.normalize_obj distinct
  rw [toJson, sent]
  refine Record.decode_of_perm same (by simp) (by simp [Record.names, Record.map, Record.and,
    Record.required, Record.field]) (.map (.and ?_ (.and ?_ ?_)) _) _ _
  · exact .of_sent (v := .str r.resourceRef) same distinct (by simp) rfl
  · exact .of_sent (v := .str r.resourceType) same distinct (by simp) rfl
  · exact .of_sent same distinct (by simp) (r.conditions.decode_sent .value)

/-- A reference that was not written is not there, and one that was is. -/
theorem ResolveRequest.ofValue_sent (r : ResolveRequest) :
    decoder.ofValue r.toJson.normalize
      = .ok ⟨r.resourceRef, r.resourceType, r.filters.asDocument⟩ := by
  obtain ⟨ref, resourceType, filters⟩ := r
  cases ref with
  | none =>
    have distinct : ([("resourceType", Value.str resourceType),
        ("filters", filters.conditionsJson)].map Prod.fst).Nodup := by simp
    obtain ⟨ms, sent, same⟩ := Value.normalize_obj distinct
    have out : "resourceRef" ∉ ms.map Prod.fst := by
      rw [(same.map Prod.fst).mem_iff]
      simp
    rw [toJson, List.nil_append, sent]
    refine Record.decode_of_perm same (by simp) (by simp [Record.names, Record.map, Record.and,
      Record.required, Record.optional, Record.field]) (.map (.and ?_ (.and ?_ ?_)) _) _ _
    · exact .missing (lookup_of_not_mem out)
    · exact .of_sent (v := .str resourceType) same distinct (by simp) rfl
    · exact .of_sent same distinct (by simp) (filters.decode_sent .value)
  | some ref =>
    have distinct : ([("resourceRef", Value.str ref), ("resourceType", .str resourceType),
        ("filters", filters.conditionsJson)].map Prod.fst).Nodup := by simp
    obtain ⟨ms, sent, same⟩ := Value.normalize_obj distinct
    rw [toJson, List.singleton_append, sent]
    refine Record.decode_of_perm same (by simp) (by simp [Record.names, Record.map, Record.and,
      Record.required, Record.optional, Record.field]) (.map (.and ?_ (.and ?_ ?_)) _) _ _
    · exact .of_sent (v := .str ref) same distinct (by simp) rfl
    · exact .of_sent (v := .str resourceType) same distinct (by simp) rfl
    · exact .of_sent same distinct (by simp) (filters.decode_sent .value)

/-! ## The law of messages -/

/-- No registry tells the decision that arrived from the one that was sent. -/
theorem PolicyDecision.Arrives.allows {R Q : Type} {d d' : PolicyDecision} (h : d.Arrives d')
    (g : Registry R Q) (resource : R) : d'.allows g resource = d.allows g resource := by
  cases h with
  | allow => rfl
  | deny => rfl
  | conditional h =>
    have same := (h.conditions.decides fun k => (g.meaning k).map fun m => m.holds resource).1
    simp only [PolicyDecision.allows, Registry.apply, same]

/-- A decision that is sent as a value arrives as one of the same kind, with its names and with
the conditions that arrive when these are sent, and it lets the same resources through whatever
rules there are. A request arrives with its type, its reference if it has one, and its criteria.
What arrived arrives as it is when it is sent in turn. -/
theorem messages_keep_their_meaning :
    (∀ d : PolicyDecision, ∃ d', PolicyDecision.decoder.ofValue d.toJson.normalize = .ok d' ∧
      d.Arrives d' ∧ PolicyDecision.decoder.ofValue d'.toJson.normalize = .ok d' ∧
      ∀ {R Q : Type} (g : Registry R Q) (resource : R),
        d'.allows g resource = d.allows g resource) ∧
    (∀ r : ApplyRequest, ∃ r', ApplyRequest.decoder.ofValue r.toJson.normalize = .ok r' ∧
      r.Arrives r' ∧ ApplyRequest.decoder.ofValue r'.toJson.normalize = .ok r') ∧
    ∀ r : ResolveRequest, ∃ r', ResolveRequest.decoder.ofValue r.toJson.normalize = .ok r' ∧
      r.Arrives r' ∧ ResolveRequest.decoder.ofValue r'.toJson.normalize = .ok r' := by
  refine ⟨fun d => ?_, fun r => ?_, fun r => ?_⟩
  · suffices ∃ d', PolicyDecision.decoder.ofValue d.toJson.normalize = .ok d' ∧ d.Arrives d' ∧
        d'.toJson = d.toJson by
      obtain ⟨d', read, arrives, same⟩ := this
      exact ⟨d', read, arrives, same ▸ read, fun g resource => arrives.allows g resource⟩
    cases d with
    | allow => exact ⟨.allow, PolicyDecision.ofValue_unconditional.1, .allow, rfl⟩
    | deny => exact ⟨.deny, PolicyDecision.ofValue_unconditional.2, .deny, rfl⟩
    | conditional d =>
      refine ⟨_, PolicyDecision.ofValue_conditional d,
        .conditional ⟨rfl, rfl, d.conditions.arrives_asDocument⟩, ?_⟩
      simp only [PolicyDecision.toJson, ConditionalDecision.members,
        Criteria.conditionsJson_asDocument]
  · refine ⟨_, r.ofValue_sent, ⟨rfl, rfl, r.conditions.arrives_asDocument⟩, ?_⟩
    simp only [ApplyRequest.toJson, Criteria.conditionsJson_asDocument]
    exact r.ofValue_sent
  · refine ⟨_, r.ofValue_sent, ⟨rfl, rfl, r.filters.arrives_asDocument⟩, ?_⟩
    simp only [ResolveRequest.toJson, Criteria.conditionsJson_asDocument]
    exact r.ofValue_sent

end Permit
