-- The query that an owner answers with, as the client reads it. What the owner reads of a request
-- is the request with other floats, and a catalog takes no floats, so a request that is answered
-- was read as it is; the answer nests no deeper than the request, so the client reads it whole.
import Permit.Proofs.Nesting
import Permit.Proofs.Parameters
import Permit.Proofs.Requests

namespace Permit

open Json Text

variable {P R Q : Type}

/-! ## Conditions as they are read -/

/-- The condition with its parameters as they are read. -/
def Condition.reread (k : Condition) : Condition :=
  ⟨k.rule, k.params.map Value.reread, k.permitted, by
    intro v hv
    obtain ⟨w, hw, rfl⟩ := List.mem_map.1 hv
    exact Value.canonical_withFloats _ w (k.canonical w hw)⟩

theorem Condition.toJson_reread (k : Condition) : k.toJson.reread = k.reread.toJson := by
  simp [Condition.toJson, reread]

theorem Condition.reread_of_integral {k : Condition} (integral : ∀ v ∈ k.params, v.Integral) :
    k.reread = k := by
  obtain ⟨rule, params, permitted, canonical⟩ := k
  have same : params.map Value.reread = params := by
    rw [List.map_congr_left fun v hv => Value.reread_of_integral (integral v hv), List.map_id']
  simp only [reread, same]

namespace Criteria

theorem conditionsJson_reread (c : Criteria Condition) :
    c.conditionsJson.reread = (c.map Condition.reread).conditionsJson := by
  have leaves : (fun k : Condition => k.toJson.reread) = fun k => k.reread.toJson :=
    funext Condition.toJson_reread
  rw [conditionsJson, conditionsJson, toJson_map, ← leaves]
  exact change_toJson (fun vs => by simp [anyOf]) (fun vs => by simp [allOf]) Condition.toJson c

theorem map_reread {c : Criteria Condition} (integral : c.Integral) :
    c.map Condition.reread = c :=
  map_eq_self fun k hk => Condition.reread_of_integral (integral k hk)

/-- If no float is read, then there is none. -/
theorem integral_of_map_reread {c : Criteria Condition}
    (read : (c.map Condition.reread).Integral) : c.Integral := by
  intro k hk v hv
  have there : k.reread ∈ (c.map Condition.reread).leaves := by
    rw [leaves_map]
    exact List.mem_map_of_mem hk
  exact Value.integral_of_withFloats _ v (read _ there _ (List.mem_map_of_mem hv))

end Criteria

/-! ## The text of a request -/

namespace ResolveRequest

variable (resourceType : String) (c : Criteria Condition)

theorem covers : Covers decoder (toJson ⟨none, resourceType, c⟩) := by
  refine .record (fun m hm => ?_) _ _
  simp only [List.nil_append, List.mem_cons, List.not_mem_nil, or_false] at hm
  rcases hm with rfl | rfl
  · exact ⟨_, rfl, (Covers.string _).check⟩
  · exact ⟨_, rfl, (Criteria.covers_toJson Condition.decoder _).check⟩

theorem decode_toJson (origin : Origin) :
    decoder.decode origin (toJson ⟨none, resourceType, c⟩).toDraft
      = .ok ⟨none, resourceType, c.asDocument⟩ := by
  have taken : ((Record.optional "resourceRef" .string).and
      ((Record.required "resourceType" .string).and
        (Record.required "filters" Criteria.conditionsDecoder))).Takes origin
      [("resourceType", .str resourceType), ("filters", c.conditionsJson.toDraft)]
      (none, resourceType, c.asDocument) :=
    .and (.missing rfl) (.and (.field rfl rfl)
      (.field rfl (Criteria.decode_conditions c origin)))
  exact (taken.map _).decode (by simp [Record.names, Record.and, Record.map, Record.optional,
    Record.required, Record.field]) (by simp) _ _

theorem toJson_reread : (toJson ⟨none, resourceType, c⟩).reread
    = toJson ⟨none, resourceType, c.map Condition.reread⟩ := by
  simp [toJson, Criteria.conditionsJson_reread]

/-- The text of a request is read with the groups of a document and with other floats. It is
refused only if the request nests deeper than the limit or has a float. -/
theorem ofText :
    ((toJson ⟨none, resourceType, c⟩).depth ≤ maxNesting ∧
      decoder.ofText (ofString (toJson ⟨none, resourceType, c⟩).text)
        = .ok ⟨none, resourceType, (c.map Condition.reread).asDocument⟩) ∨
    ¬ ((toJson ⟨none, resourceType, c⟩).depth ≤ maxNesting ∧ c.Integral) ∧
      ∃ f, decoder.ofText (ofString (toJson ⟨none, resourceType, c⟩).text) = .error f := by
  obtain ⟨shallow, read⟩ | ⟨beyond, failed⟩ := (covers resourceType c).ofText
  · rw [toJson_reread, decode_toJson] at read
    exact .inl ⟨shallow, read⟩
  · refine .inr ⟨fun ⟨shallow, integral⟩ => beyond ⟨shallow, ?_⟩, failed⟩
    simp [toJson, Criteria.integral_conditionsJson integral]

end ResolveRequest

/-! ## Rules that take no floats -/

/-- What the decoder takes has whole numbers only. -/
def Json.Decoder.TakesWhole {α : Type} (d : Decoder α) : Prop :=
  ∀ v a, d.ofValue v = .ok a → v.Integral

namespace Json.Decoder

variable {α : Type} {d : Decoder α}

theorem takesWhole_string : Decoder.string.TakesWhole := by
  intro v s h
  rw [decode_string_iff.1 h]
  trivial

theorem TakesWhole.list (whole : d.TakesWhole) : (Decoder.list d).TakesWhole := by
  intro v as h
  obtain ⟨vs, rfl, each⟩ := decode_list_iff.1 h
  rw [Value.integral_arr]
  exact ((List.forall₂_and_left _ _).1 (each.imp fun v a read => ⟨whole v a read, read⟩)).1

theorem TakesWhole.single (whole : d.TakesWhole) : (Decoder.single d).TakesWhole := by
  intro v a h
  obtain ⟨w, rfl, read⟩ := decode_single_iff.1 h
  simpa using whole w a read

end Json.Decoder

/-- No parameters that the rule takes have a float. -/
def Rule.TakesWhole (rule : Rule R Q) : Prop :=
  ∀ params m, rule.meaning params = .ok m → ∀ v ∈ params, v.Integral

theorem TypedRule.takesWhole_erase {rule : TypedRule P R Q}
    (whole : rule.params.decoder.TakesWhole) : rule.erase.TakesWhole := by
  intro params m h
  obtain ⟨p, decoded⟩ : ∃ p, decodeParams rule.params params = .ok p := by
    change rule.meaning params = .ok m at h
    unfold TypedRule.meaning at h
    cases decoded : decodeParams rule.params params with
    | ok p => exact ⟨p, rfl⟩
    | error f =>
      rw [decoded] at h
      cases h
  rcases reading_iff.1 (reading_of_decodeParams decoded) with array | ⟨v, short, value⟩
  · exact Value.integral_arr.1 (whole _ p array)
  · match params with
    | [] => simp
    | [w] =>
      cases short
      simpa using whole v p value
    | _ :: _ :: _ => cases short

/-- No rule takes floats. -/
def Registry.TakesWhole (g : Registry R Q) : Prop := ∀ rule ∈ g.rules, rule.TakesWhole

/-- Criteria that can be interpreted have whole numbers only, if no rule takes floats. -/
theorem Registry.TakesWhole.integral {g : Registry R Q} (whole : g.TakesWhole)
    {c : Criteria Condition} (valid : g.validate c = .ok ()) : c.Integral := by
  intro k hk
  obtain ⟨m, meaning⟩ := validate_eq_ok_iff.1 valid k hk
  obtain ⟨rule, known, _, taken⟩ := exists_rule_of_meaning meaning
  exact whole rule known k.params m taken

/-! ## The answer of the owner -/

/-- Criteria with the groups of a document are lowered to the query with these groups. -/
theorem Registry.toQuery_asDocument {g : Registry R Q} {c : Criteria Condition} {q : Criteria Q}
    (lowered : g.toQuery c = .ok q) : g.toQuery c.asDocument = .ok q.asDocument := by
  obtain ⟨pairs, interprets, rfl⟩ := interprets_of_toQuery lowered
  have regrouped : g.Interprets pairs.asDocument c.asDocument := by
    refine ⟨?_, fun x hx => interprets.meanings x ?_⟩
    · rw [← interprets.conditions]
      exact (Criteria.regroup.run_map Prod.fst pairs).symm
    · rwa [← Criteria.regroup.leaves_run pairs]
  rw [regrouped.toQuery]
  exact congrArg Except.ok (Criteria.regroup.run_map _ pairs).symm

theorem Owner.check_asDocument {m : Type → Type} (o : Owner m R Q) (resourceType : String)
    (c : Criteria Condition) : o.check resourceType c.asDocument = o.check resourceType c := by
  rw [check, check, Registry.validate_asDocument]

section Answers

variable {m : Type → Type} [Monad m] [LawfulMonad m]

/-- A request without a reference is answered with the query that its criteria stand for if it can
be read and passes the checks, and else it is refused. Nothing is looked up. -/
theorem Owner.answerResolve_text (o : Owner m R Q) (whole : o.registry.TakesWhole)
    (query : Q → Value) (resourceType : String) (c : Criteria Condition) :
    let request := ResolveRequest.toJson ⟨none, resourceType, c⟩
    ((request.depth ≤ maxNesting ∧ o.check resourceType c = .ok ()) ∧
      ∃ q, o.registry.toQuery c = .ok q ∧
        o.answerResolve query (ofString request.text) = pure (.json 200 (q.toJson query))) ∨
    ¬ (request.depth ≤ maxNesting ∧ o.check resourceType c = .ok ()) ∧
      ∃ e, o.answerResolve query (ofString request.text) = pure (.ofError e) := by
  intro request
  have integral (passed : o.check resourceType c = .ok ()) : c.Integral :=
    whole.integral ((o.check_iff resourceType c).1 passed).2
  obtain ⟨shallow, read⟩ | ⟨beyond, f, failed⟩ := ResolveRequest.ofText resourceType c
  · rw [answerResolve_of_read read]
    cases checked : o.check resourceType (c.map Condition.reread).asDocument with
    | error e =>
      refine .inr ⟨fun ⟨_, passed⟩ => ?_, e, ?_⟩
      · rw [Criteria.map_reread (integral passed), o.check_asDocument, passed] at checked
        cases checked
      · rw [resolveFilters_of_check_error checked, map_pure]
        rfl
    | ok _ =>
      rw [o.check_asDocument] at checked
      -- The registry took what was read, so that has no floats, and neither has the request.
      have same := Criteria.map_reread (Criteria.integral_of_map_reread
        (whole.integral ((o.check_iff resourceType _).1 checked).2))
      rw [same] at checked ⊢
      obtain ⟨q, lowered⟩ := Registry.toQuery_of_validate ((o.check_iff resourceType c).1 checked).2
      refine .inl ⟨⟨shallow, checked⟩, q, lowered, ?_⟩
      have passed : o.check resourceType c.asDocument = .ok () := by rwa [o.check_asDocument]
      rw [resolveFilters_of_check passed (Registry.toQuery_asDocument lowered)]
      simp [HttpResponse.ofResult, Criteria.toJson_asDocument]
  · refine .inr ⟨fun ⟨shallow, passed⟩ => beyond ⟨shallow, integral passed⟩,
      .malformedCriteria (f.message (ofString request.text)), ?_⟩
    rw [answerResolve, readBody, failed]
    rfl

/-- The client reads what the owner answers to the text of its question. -/
theorem Client.resolveFilters_exchange (c : Client) (o : Owner m R Q) (query : Q → Value)
    (leaf : Decoder Q) (d : ConditionalDecision) :
    c.resolveFilters (o.exchange query c.baseUrl) leaf d
      = (fun response : HttpResponse =>
          (Exchange.answered response.status (ofString response.body)).read
            (Criteria.decoder leaf) (c.resolveQuestion d).url) <$>
        o.answerResolve query (ofString (c.resolveQuestion d).body.text) := by
  have arrives : o.exchange query c.baseUrl (c.resolveQuestion d)
      = (fun response : HttpResponse => .answered response.status (ofString response.body)) <$>
        o.answerResolve query (ofString (c.resolveQuestion d).body.text) := by
    rw [resolveQuestion, o.exchange_eq, (o.answer_post query _).2, map_eq_pure_bind]
  simp only [resolveFilters, arrives, bind_pure_comp, Functor.map_map]

theorem Client.resolveFilters_of_answer {c : Client} {o : Owner m R Q} {query : Q → Value}
    {d : ConditionalDecision} {response : HttpResponse}
    (answer : o.answerResolve query (ofString (c.resolveQuestion d).body.text) = pure response)
    (leaf : Decoder Q) : c.resolveFilters (o.exchange query c.baseUrl) leaf d
      = pure ((Exchange.answered response.status (ofString response.body)).read
          (Criteria.decoder leaf) (c.resolveQuestion d).url) := by
  rw [c.resolveFilters_exchange, answer, map_pure]

end Answers

/-! ## The answer as the client reads it -/

theorem ErrorResponse.follows (e : ErrorResponse) : Follows decoder e.toJson := by
  refine ⟨.record (fun m hm => ?_) _ _, by simp [toJson]⟩
  rw [List.mem_singleton.1 hm]
  refine ⟨_, rfl, Covers.check (.record (fun m hm => ?_) _ _)⟩
  simp only [List.mem_cons, List.not_mem_nil, or_false] at hm
  rcases hm with rfl | rfl <;> exact ⟨_, rfl, (Covers.string _).check⟩

theorem ErrorResponse.decode_toJson (e : ErrorResponse) (origin : Origin) :
    decoder.decode origin e.toJson.toDraft = .ok e := rfl

/-- A refusal is told with its status, its code and what it says. -/
theorem Exchange.read_ofError {α : Type} (d : Decoder α) (url : String) (e : ResolutionError) :
    (answered e.status (ofString (HttpResponse.ofError e).body)).read d url
      = .error (.unexpectedStatus url e.status (some e.code) e.publicMessage) := by
  have shallow : (ErrorResponse.toJson ⟨e.code, e.publicMessage⟩).depth ≤ maxNesting := by
    simp [ErrorResponse.toJson, Value.depth, Value.depthMembers, maxNesting]
  have read := (ErrorResponse.follows ⟨e.code, e.publicMessage⟩).ofText.1 shallow
  rw [ErrorResponse.decode_toJson] at read
  simp [HttpResponse.ofError, HttpResponse.json, Exchange.read, e.not_success, read]

/-- An answered query is read with the groups of a document, if it nests within the limit. -/
theorem Exchange.read_query {leaf : Decoder Q} {query : Q → Value} {q : Criteria Q} (url : String)
    (reads : ∀ a ∈ q.leaves, Criteria.node? leaf.ofBuffer? (query a) = some (.leaf a))
    (integral : ∀ a ∈ q.leaves, (query a).Integral)
    (shallow : (q.toJson query).depth ≤ maxNesting) :
    (answered 200 (ofString (q.toJson query).text)).read (Criteria.decoder leaf) url
      = .ok q.asDocument := by
  have follows : Follows (Criteria.decoder leaf) (q.toJson query) :=
    ⟨Criteria.covers_toJson leaf q, Criteria.integral_toJson q integral⟩
  have read := follows.ofText.1 shallow
  rw [Criteria.decode_toJson reads] at read
  simp [Exchange.read, isSuccess, read, Except.mapError]

/-- The document of a query nests no deeper than that of the criteria, if no fragment nests deeper
than a condition without parameters. -/
theorem Registry.depth_query {g : Registry R Q} {c : Criteria Condition} {q : Criteria Q}
    (lowered : g.toQuery c = .ok q) {query : Q → Value} (flat : ∀ a, (query a).depth ≤ 2) :
    (q.toJson query).depth ≤ c.conditionsJson.depth := by
  obtain ⟨pairs, interprets, rfl⟩ := interprets_of_toQuery lowered
  rw [← interprets.conditions, Criteria.conditionsJson, Criteria.toJson_map, Criteria.toJson_map]
  refine Criteria.depth_toJson_mono pairs fun x _ => (flat x.2.query).trans ?_
  simp [Condition.toJson, Value.depth, Value.depthMembers]

namespace Catalog

/-! ## Filters on the way -/

theorem Filter.depth_toJson (f : Filter) : f.toJson.depth ≤ 2 := by
  cases f with
  | isIn key values =>
    have items : Value.depthItems (values.map .str) ≤ 0 :=
      Value.depthItems_le.2 (by simp [Value.depth])
    simp only [Filter.toJson, Value.depth, Value.depthMembers]
    omega
  | «exists» key => simp [Filter.toJson, Value.depth, Value.depthMembers]

theorem Filter.integral_toJson (f : Filter) : f.toJson.Integral := by
  cases f <;> simp [Filter.toJson]

/-- A filter is read back from its document, and is not taken for a document of criteria. -/
theorem Filter.node?_toJson (f : Filter) :
    Criteria.node? Filter.decoder.ofBuffer? f.toJson = some (.leaf f) := by
  cases f with
  | isIn key values => exact Criteria.node?_of_leaf (Criteria.LeafForm.reads_isIn key values).1 rfl
  | «exists» key => rfl

/-- The query of a request that was read is read in turn. -/
theorem read_query {c : Criteria Condition} {q : Criteria Filter} {resourceType : String}
    (shallow : (ResolveRequest.toJson ⟨none, resourceType, c⟩).depth ≤ maxNesting)
    (lowered : registry.toQuery c = .ok q) (url : String) :
    (Exchange.answered 200 (ofString (q.toJson Filter.toJson).text)).read
      (Criteria.decoder Filter.decoder) url = .ok q.asDocument := by
  have less := Registry.depth_query lowered Filter.depth_toJson
  simp only [ResolveRequest.toJson, List.nil_append, Value.depth, Value.depthMembers] at shallow
  exact Exchange.read_query url (fun f _ => f.node?_toJson) (fun f _ => f.integral_toJson)
    (by omega)

theorem takesWhole_registry : registry.TakesWhole := by
  unfold registry
  split
  · next extended =>
    refine Registry.forall_of_extend (fun rule known => by cases known) (fun rule hr => ?_) extended
    have strings : (Decoder.single (.list .string)).TakesWhole :=
      Decoder.takesWhole_string.list.single
    simp only [rules, List.mem_cons, List.not_mem_nil, or_false] at hr
    rcases hr with rfl | rfl | rfl <;> exact TypedRule.takesWhole_erase strings
  · exact fun rule known => by cases known

/-- The catalog answers with success exactly if the question can be read, is about its resources
and has only conditions that it can interpret. The client then gets the query that the conditions
stand for, with its filters in their order, as it would get it without the way by text, and that
finds what the query finds. Where the catalog refuses, the client tells the status, the code and the
message of the refusal. -/
theorem the_client_understands_each_answer {m : Type → Type} [Monad m] [LawfulMonad m]
    (client : Client) (pluginId resourceType : String) (fetch : String → m (Fetched Entity))
    (d : ConditionalDecision) :
    let owner := Owner.mk pluginId resourceType registry fetch
    let question := client.resolveQuestion d
    let told := client.resolveFilters (owner.exchange Filter.toJson client.baseUrl) Filter.decoder d
    ∃ response : HttpResponse,
      owner.answer Filter.toJson ⟨"POST", resolvePath, ofString question.body.text⟩
        = pure response ∧
      (response.status = 200 ↔ question.body.depth ≤ 127 ∧ d.resourceType = resourceType ∧
        registry.validate d.conditions = .ok ()) ∧
      (response.status = 200 → ∃ q q', registry.toQuery d.conditions = .ok q ∧
        told = pure (.ok q') ∧ q'.leaves = q.leaves ∧ Criteria.LeafForm.filter.trip q = .ok q' ∧
        ∀ found, q'.evaluate found = q.evaluate found) ∧
      (response.status ≠ 200 → ∃ code message,
        response = .refusal response.status code message ∧
        told = pure (.error (.unexpectedStatus question.url response.status (some code)
          message))) := by
  intro owner question told
  rw [(owner.answer_post Filter.toJson _).2]
  obtain ⟨⟨shallow, passed⟩, q, lowered, answer⟩ | ⟨beyond, e, answer⟩ :=
    owner.answerResolve_text takesWhole_registry Filter.toJson d.resourceType d.conditions
  · have passes := (owner.check_iff _ _).1 passed
    refine ⟨_, answer, iff_of_true rfl ⟨shallow, passes⟩, fun _ => ⟨q, q.asDocument, lowered, ?_,
      Criteria.regroup.leaves_run q, Criteria.LeafForm.faithful_filter.trip_eq q,
      fun found => Criteria.regroup.evaluateM_run (m := Id) _ q⟩, fun other => absurd rfl other⟩
    exact (Client.resolveFilters_of_answer answer _).trans
      (congrArg pure (read_query shallow lowered _))
  · have failed : e.status ≠ 200 := by
      intro success
      have refused : isSuccess 200 = false := success ▸ e.not_success
      cases refused
    have outside : ¬ (question.body.depth ≤ 127 ∧ d.resourceType = resourceType ∧
        registry.validate d.conditions = .ok ()) :=
      fun ⟨shallow, passes⟩ => beyond ⟨shallow, (owner.check_iff _ _).2 passes⟩
    refine ⟨_, answer, iff_of_false failed outside, fun success => absurd success failed,
      fun _ => ⟨e.code, e.publicMessage, rfl, ?_⟩⟩
    exact (Client.resolveFilters_of_answer answer _).trans
      (congrArg pure (Exchange.read_ofError _ _ e))

/-- The team gets the query for its decision, and a decision with a rule that the catalog does not
have is refused. -/
theorem the_team_gets_its_query :
    let owner : Owner Id Entity Filter := ⟨pluginId, resourceType, registry, fetchSample⟩
    let ask := owner.exchange Filter.toJson "http://catalog"
    (∃ q, Client.resolveFilters ⟨"http://catalog"⟩ ask Filter.decoder forTeam = .ok q ∧
      q.leaves = [.isIn "relations.ownedBy" ["group:default/team-a"], .isIn "relations.ownedBy" [],
        .isIn "relations.ownedBy" ["group:default/team-a"]]) ∧
    ∃ status code message, Client.resolveFilters ⟨"http://catalog"⟩ ask Filter.decoder
        ⟨pluginId, resourceType, withOrphans⟩
      = .error (.unexpectedStatus "http://catalog/permissions/resolve-filters" status (some code)
        message) := by
  intro owner ask
  constructor
  · obtain ⟨response, _, taken, understood, _⟩ := the_client_understands_each_answer
      ⟨"http://catalog"⟩ pluginId resourceType owner.fetch forTeam
    obtain ⟨q, q', lowered, told, leaves, _⟩ :=
      understood (taken.2 ⟨by decide, rfl, by decide⟩)
    refine ⟨q', told, leaves.trans ?_⟩
    cases lowered
    rfl
  · obtain ⟨response, _, taken, _, refused⟩ := the_client_understands_each_answer
      ⟨"http://catalog"⟩ pluginId resourceType owner.fetch ⟨pluginId, resourceType, withOrphans⟩
    have unknown : registry.validate withOrphans ≠ .ok () := by decide
    obtain ⟨code, message, _, told⟩ := refused fun success => unknown (taken.1 success).2.2
    exact ⟨response.status, code, message, told⟩

end Catalog

end Permit
