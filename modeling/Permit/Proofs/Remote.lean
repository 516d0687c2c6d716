-- Asking the owner of a resource and deciding on the spot: the owner checks more than a
-- decision on the spot does, so what it allows is allowed here as well, and what it refuses
-- to answer is denied.
import Permit.Proofs.Documents
import Permit.Proofs.Json.Decoding
import Permit.Resolution.Client
import Permit.Resolution.Http

namespace Permit

open Json Text

variable {R Q : Type}

/-! ## The exchange -/

/-- The exchange between a client and an owner at its address: the question comes as a POST
on the path after the address, and status and body of the answer go back as they are. -/
def Owner.exchange {m : Type → Type} [Monad m] (o : Owner m R Q) (query : Q → Value)
    (address : String) (q : Question) : m Exchange := do
  let path := String.ofList (q.url.toList.drop address.toList.length)
  let response ← o.answer query ⟨"POST", path, ofString q.body.text⟩
  return .answered response.status (ofString response.body)

/-- An owner whose resources do not change. -/
def Owner.ofResources (pluginId resourceType : String) (g : Registry R Q)
    (resources : String → Option R) : Owner Id R Q :=
  ⟨pluginId, resourceType, g, fun ref => .ok (resources ref)⟩

/-! ## The text of a request -/

namespace Criteria

variable {α : Type} {write : α → Value}

/-- A document has no numbers but those of its leaves. -/
theorem integral_node (c : Criteria α) (each : ∀ a ∈ c.leaves, (write a).Integral) :
    (node write c).Integral ∧ (conjunction write c).Integral := by
  induction c with
  | leaf a =>
    have self : (write a).Integral := each a (by simp [leaves])
    simp [node, conjunction, allOf, self]
  | all cs ih =>
    have inner : ∀ c ∈ cs, (node write c).Integral := fun c hc =>
      (ih c hc fun a ha => each a (mem_leaves_all hc ha)).1
    simpa [node, conjunction, allOf, anyOf, nodes_eq] using inner
  | any cs ih =>
    have inner : ∀ c ∈ cs, (conjunction write c).Integral := fun c hc =>
      (ih c hc fun a ha => each a (mem_leaves_any hc ha)).2
    simpa [node, conjunction, allOf, anyOf, conjunctions_eq] using inner

theorem integral_toJson (c : Criteria α) (each : ∀ a ∈ c.leaves, (write a).Integral) :
    (toJson write c).Integral := by
  rw [toJson_eq, conjunctions_eq]
  have inner : ∀ d ∈ c.conjunctionsOf, (conjunction write d).Integral := fun d hd =>
    (integral_node d fun a ha => each a (leaves_of_conjunctionsOf hd ha)).2
  simpa [anyOf] using inner

/-- The decoder of documents covers the document of a tree. -/
theorem covers_toJson (leaf : Decoder α) (c : Criteria α) :
    Covers (Criteria.decoder leaf) (toJson write c) := by
  have lists : conjunctions write c.conjunctionsOf
      = (c.conjunctionsOf.map fun d => nodes write d.nodesOf).map allOf := by
    rw [conjunctions_eq, List.map_map]
    exact List.map_congr_left fun d _ => conjunction_eq write d
  rw [toJson_eq, lists]
  exact .document leaf _

/-- Criteria whose parameters have whole numbers only. -/
def Integral (c : Criteria Condition) : Prop := ∀ k ∈ c.leaves, ∀ v ∈ k.params, v.Integral

theorem integral_conditionsJson {c : Criteria Condition} (integral : c.Integral) :
    c.conditionsJson.Integral := by
  refine integral_toJson c fun k hk => ?_
  have params := integral k hk
  simpa [Condition.toJson] using params

theorem follows_conditions {c : Criteria Condition} (integral : c.Integral) :
    Follows conditionsDecoder c.conditionsJson :=
  ⟨covers_toJson Condition.decoder c, integral_conditionsJson integral⟩

/-- Conditions arrive as a tree with the groups of a document. -/
theorem decode_conditions (c : Criteria Condition) (origin : Origin) :
    conditionsDecoder.decode origin c.conditionsJson.toDraft = .ok c.asDocument := by
  have reads (k : Condition) : Condition.decoder.ofBuffer? k.toJson = some k :=
    congrArg Except.toOption (LeafForm.decode_condition k .buffer _ (.refl _))
  exact decode_toJson (fun k _ => node?_of_leaf (reads k) rfl) origin

end Criteria

namespace ApplyRequest

theorem covers (r : ApplyRequest) : Covers decoder r.toJson := by
  refine .record (fun m hm => ?_) _ _
  simp only [List.mem_cons, List.not_mem_nil, or_false] at hm
  rcases hm with rfl | rfl | rfl
  · exact ⟨_, rfl, (Covers.string _).check⟩
  · exact ⟨_, rfl, (Covers.string _).check⟩
  · exact ⟨_, rfl, (Criteria.covers_toJson Condition.decoder _).check⟩

theorem follows {r : ApplyRequest} (integral : r.conditions.Integral) :
    Follows decoder r.toJson :=
  ⟨r.covers, by simp [toJson, Criteria.integral_conditionsJson integral]⟩

theorem decode_toJson (r : ApplyRequest) (origin : Origin) :
    decoder.decode origin r.toJson.toDraft
      = .ok ⟨r.resourceRef, r.resourceType, r.conditions.asDocument⟩ := by
  have taken : ((Record.required "resourceRef" .string).and
      ((Record.required "resourceType" .string).and
        (Record.required "conditions" Criteria.conditionsDecoder))).Takes origin
      [("resourceRef", .str r.resourceRef), ("resourceType", .str r.resourceType),
        ("conditions", r.conditions.conditionsJson.toDraft)]
      (r.resourceRef, r.resourceType, r.conditions.asDocument) :=
    .and (.field rfl rfl) (.and (.field rfl rfl)
      (.field rfl (Criteria.decode_conditions r.conditions origin)))
  exact (taken.map _).decode (fun _ h => h) (by simp) _ _

end ApplyRequest

/-! ## The answer -/

/-- An error never has a status of success. -/
theorem ResolutionError.not_success (e : ResolutionError) : isSuccess e.status = false := by
  cases e with
  | rule e => cases e <;> rfl
  | _ => rfl

theorem ApplyResponse.follows (r : ApplyResponse) : Follows decoder r.toJson := by
  refine ⟨.record (fun m hm => ?_) _ _, by simp [toJson, Value.Integral]⟩
  rw [List.mem_singleton.1 hm]
  exact ⟨_, rfl, (Covers.bool _).check⟩

theorem ApplyResponse.decode_toJson (r : ApplyResponse) (origin : Origin) :
    decoder.decode origin r.toJson.toDraft = .ok r := rfl

/-- What the client reads is what the owner found, or some error where there is one. -/
theorem read_ofResult (url : String) (result : Except ResolutionError ApplyResponse) :
    let response := HttpResponse.ofResult ApplyResponse.toJson result
    ((Exchange.answered response.status (ofString response.body)).read
      ApplyResponse.decoder url).toOption = result.toOption := by
  cases result with
  | ok r =>
    have shallow : r.toJson.depth ≤ maxNesting := by
      simp [ApplyResponse.toJson, Value.depth, Value.depthMembers, maxNesting]
    have read := r.follows.ofText.1 shallow
    simp [HttpResponse.ofResult, HttpResponse.json, Exchange.read, isSuccess, read,
      r.decode_toJson, Except.mapError, Except.toOption]
  | error e =>
    have refused := e.not_success
    simp only [HttpResponse.ofResult, HttpResponse.ofError, HttpResponse.json, Exchange.read,
      refused]
    split
    · contradiction
    · split <;> rfl

section Paths

variable {m : Type → Type} [Monad m] (o : Owner m R Q) (query : Q → Value)

/-- A question arrives on the path after the address, with the text of its body. -/
theorem Owner.exchange_eq (address path : String) (body : Value) :
    o.exchange query address ⟨address ++ path, body⟩ = (do
      let response ← o.answer query ⟨"POST", path, ofString body.text⟩
      return .answered response.status (ofString response.body)) := by
  have after : String.ofList ((address ++ path).toList.drop address.toList.length) = path := by
    rw [String.toList_append, List.drop_left, String.ofList_toList]
  simp only [exchange, after]

/-- Each path leads to its operation. -/
theorem Owner.answer_post (body : List Glyph) :
    o.answer query ⟨"POST", applyPath, body⟩ = o.answerApply body ∧
      o.answer query ⟨"POST", resolvePath, body⟩ = o.answerResolve query body := by
  have whole (path : String) (noQuery : path.toList.takeWhile (· != '?') = path.toList) :
      pathOf ⟨"POST", path, body⟩ = path := by
    rw [pathOf, noQuery, String.ofList_toList]
  have apart : resolvePath ≠ applyPath := by decide
  have first := whole applyPath (by decide)
  have second := whole resolvePath (by decide)
  constructor
  · simp [answer, first]
  · simp [answer, second, apart]

end Paths

/-- The client's question arrives on the path for it, with the text of the request. -/
theorem exchange_applyQuestion (c : Client) (o : Owner Id R Q) (query : Q → Value)
    (ref : String) (k : ConditionalDecision) :
    o.exchange query c.baseUrl (c.applyQuestion ref k) =
      (let response := o.answerApply
        (ofString (ApplyRequest.toJson ⟨ref, k.resourceType, k.conditions⟩).text)
      .answered response.status (ofString response.body)) := by
  rw [Client.applyQuestion, o.exchange_eq, (o.answer_post query _).1]
  rfl

/-! ## The two decisions -/

/-- What the owner finds about the body of a question. -/
def Owner.finds (o : Owner Id R Q) (body : List Glyph) : Except ResolutionError ApplyResponse :=
  match readBody ApplyRequest.decoder body with
  | .error e => .error e
  | .ok request => (o.applyConditions request).run

theorem answerApply_eq (o : Owner Id R Q) (body : List Glyph) :
    o.answerApply body = HttpResponse.ofResult ApplyResponse.toJson (o.finds body) := by
  unfold Owner.answerApply Owner.finds
  cases Owner.readBody ApplyRequest.decoder body with
  | error e => rfl
  | ok request => rfl

/-- The client says yes if it reads a clear yes. -/
theorem allows_iff (c : Client) (ask : Question → Id Exchange) (ref : String)
    (k : ConditionalDecision) :
    c.allows ask ref (.conditional k) = true ↔
      (Exchange.read ApplyResponse.decoder (c.applyQuestion ref k).url
        (ask (c.applyQuestion ref k))).toOption = some ⟨true⟩ := by
  generalize read : Exchange.read ApplyResponse.decoder (c.applyQuestion ref k).url
    (ask (c.applyQuestion ref k)) = reply
  have settled : c.applyConditions ask ref k = reply.map ApplyResponse.allowed :=
    congrArg (Except.map ApplyResponse.allowed) read
  rw [Client.allows, settled]
  cases reply with
  | error e => simp [Except.map, Except.toOption]
  | ok r =>
    obtain ⟨allowed⟩ := r
    change allowed = true ↔ some (ApplyResponse.mk allowed) = some ⟨true⟩
    simp

/-- The client says yes if the owner finds so. -/
theorem allows_exchange (c : Client) (o : Owner Id R Q) (query : Q → Value) (ref : String)
    (k : ConditionalDecision) :
    c.allows (o.exchange query c.baseUrl) ref (.conditional k) = true ↔
      o.finds (ofString (ApplyRequest.toJson ⟨ref, k.resourceType, k.conditions⟩).text)
        = .ok ⟨true⟩ := by
  rw [allows_iff, exchange_applyQuestion, answerApply_eq, read_ofResult]
  cases o.finds (ofString (ApplyRequest.toJson ⟨ref, k.resourceType, k.conditions⟩).text) with
  | error e => simp [Except.toOption]
  | ok r => simp [Except.toOption]

/-- A request that nests within the limit is read with the groups of a document, and one
that nests deeper is refused. -/
theorem finds_text (o : Owner Id R Q) {r : ApplyRequest} (integral : r.conditions.Integral) :
    (r.toJson.depth ≤ maxNesting → o.finds (ofString r.toJson.text)
      = (o.applyConditions ⟨r.resourceRef, r.resourceType, r.conditions.asDocument⟩).run) ∧
    (maxNesting < r.toJson.depth → ∃ e, o.finds (ofString r.toJson.text) = .error e) := by
  obtain ⟨whole, given⟩ := (ApplyRequest.follows integral).ofText
  unfold Owner.finds Owner.readBody
  constructor
  · intro shallow
    rw [whole shallow, r.decode_toJson]
    rfl
  · intro deep
    obtain ⟨f, rejected⟩ := given deep
    rw [rejected]
    exact ⟨_, rfl⟩

/-- Criteria with the groups of a document are checked and decided as the criteria are. -/
theorem Registry.validate_asDocument (g : Registry R Q) (c : Criteria Condition) :
    g.validate c.asDocument = g.validate c := by
  have same : c.asDocument.leaves = c.leaves := Criteria.regroup.leaves_run c
  rw [Registry.validate, same, Registry.validate]

theorem Registry.apply_asDocument (g : Registry R Q) (c : Criteria Condition) (resource : R) :
    g.apply c.asDocument resource = g.apply c resource :=
  Criteria.regroup.tryEvaluate_run _ c

theorem Owner.check_iff {m : Type → Type} (o : Owner m R Q) (resourceType : String)
    (c : Criteria Condition) :
    o.check resourceType c = .ok () ↔
      resourceType = o.resourceType ∧ o.registry.validate c = .ok () := by
  unfold Owner.check
  by_cases same : resourceType = o.resourceType
  · cases o.registry.validate c with
    | error e => simp [same, Except.mapError]
    | ok _ => simp [same, Except.mapError]
  · simp [same]

theorem Owner.satisfies_iff (o : Owner Id R Q) (c : Criteria Condition) (resource : R) :
    o.satisfies c resource = .ok ⟨true⟩ ↔ o.registry.apply c resource = .ok true := by
  unfold Owner.satisfies
  cases o.registry.apply c resource with
  | error e => simp [Except.mapError, Except.map]
  | ok b => simp [Except.mapError, Except.map]

/-- The owner finds so if the request is about its resources, each condition can be
interpreted, the resource is there, and the conditions hold for it. -/
theorem Owner.applyConditions_iff (o : Owner Id R Q) (request : ApplyRequest) :
    (o.applyConditions request).run = .ok ⟨true⟩ ↔
      request.resourceType = o.resourceType ∧ o.registry.validate request.conditions = .ok () ∧
      ∃ r, (o.fetch request.resourceRef).run = .ok (some r) ∧
        o.registry.apply request.conditions r = .ok true := by
  rw [← and_assoc, ← o.check_iff]
  unfold Owner.applyConditions
  cases o.check request.resourceType request.conditions with
  | error e => simp
  | ok _ =>
    simp only [Id.run_bind]
    cases (o.fetch request.resourceRef).run with
    | error causes => simp [found]
    | ok resource? =>
      cases resource? with
      | none => simp [found]
      | some r => simp [found, o.satisfies_iff]

/-- Exactly when a client lets a resource through: the request can be read, it is about the
resources of the owner, each condition can be interpreted, and the resource is there and
satisfies the conditions. -/
theorem allows_exchange_iff (c : Client) (o : Owner Id R Q) (query : Q → Value) (ref : String)
    {k : ConditionalDecision} (integral : k.conditions.Integral) :
    c.allows (o.exchange query c.baseUrl) ref (.conditional k) = true ↔
      (ApplyRequest.toJson ⟨ref, k.resourceType, k.conditions⟩).depth ≤ maxNesting ∧
      k.resourceType = o.resourceType ∧ o.registry.validate k.conditions = .ok () ∧
      ∃ r, (o.fetch ref).run = .ok (some r) ∧ o.registry.apply k.conditions r = .ok true := by
  have texts := finds_text o (r := ⟨ref, k.resourceType, k.conditions⟩) integral
  rw [allows_exchange]
  by_cases shallow : (ApplyRequest.toJson ⟨ref, k.resourceType, k.conditions⟩).depth ≤ maxNesting
  · rw [texts.1 shallow, o.applyConditions_iff]
    simp [shallow, Registry.validate_asDocument, Registry.apply_asDocument]
  · obtain ⟨e, refused⟩ := texts.2 (by omega)
    simp [refused, shallow]

/-- The decision on the spot: the conditions hold, and nothing went wrong. -/
theorem PolicyDecision.allows_conditional_iff (g : Registry R Q) (k : ConditionalDecision)
    (resource : R) :
    (PolicyDecision.conditional k).allows g resource = true ↔
      g.apply k.conditions resource = .ok true := by
  rw [PolicyDecision.allows]
  cases g.apply k.conditions resource with
  | error e => simp
  | ok b => simp

/-- What an owner of fixed resources allows is allowed by the decision on the spot, if the
decision is about resources of that type and the resource is there. Where the owner can
interpret every condition and read the request, the two decisions are the same. -/
theorem asking_allows_no_more (c : Client) (pluginId resourceType : String) (g : Registry R Q)
    (resources : String → Option R) (query : Q → Value) (ref : String) (d : PolicyDecision)
    (integral : ∀ k, d = .conditional k → k.conditions.Integral) :
    let ask := (Owner.ofResources pluginId resourceType g resources).exchange query c.baseUrl
    (c.allows ask ref d = true → d = .allow ∨ ∃ k r, d = .conditional k ∧
      k.resourceType = resourceType ∧ resources ref = some r ∧ d.allows g r = true) ∧
    (∀ k r, d = .conditional k → k.resourceType = resourceType →
      g.validate k.conditions = .ok () →
      (ApplyRequest.toJson ⟨ref, k.resourceType, k.conditions⟩).depth ≤ 127 →
      resources ref = some r → c.allows ask ref d = d.allows g r) := by
  intro ask
  constructor
  · intro yes
    cases d with
    | allow => exact .inl rfl
    | deny => cases yes
    | conditional k =>
      obtain ⟨_, same, _, r, found, holds⟩ :=
        (allows_exchange_iff c _ query ref (integral k rfl)).1 yes
      refine .inr ⟨k, r, rfl, same, ?_, ?_⟩
      · exact Option.some.inj (congrArg Except.toOption found)
      · exact (PolicyDecision.allows_conditional_iff g k r).2 holds
  · rintro k r rfl same valid shallow found
    have fetched : ((Owner.ofResources pluginId resourceType g resources).fetch ref).run
        = .ok (some r) := congrArg Except.ok found
    rw [Bool.eq_iff_iff, PolicyDecision.allows_conditional_iff]
    refine (allows_exchange_iff c _ query ref (integral k rfl)).trans ⟨?_, ?_⟩
    · rintro ⟨_, _, _, s, again, holds⟩
      rw [fetched] at again
      cases again
      exact holds
    · exact fun holds => ⟨shallow, same, valid, r, fetched, holds⟩

namespace Catalog

/-- The condition that one of the given claims owns the entity. -/
def ownedBy (claims : List String) : Condition :=
  ⟨"IS_OWNER", [.arr (claims.map .str)], rfl, by simp [Value.Canonical, Value.canonicalItems_iff]⟩

/-- A decision for one team, in which a group stands inside a group. -/
def forTeam : ConditionalDecision :=
  ⟨"catalog", resourceType, .all [.leaf (ownedBy ["group:default/team-a"]),
    .any [.leaf (ownedBy []), .leaf (ownedBy ["group:default/team-a"])]]⟩

/-- The sample with the given reference. -/
def sample? (ref : String) : Option Entity := samples.find? fun e => e.ref == ref

/-- The team may see its service, whoever decides. -/
theorem asking_about_a_sample :
    forTeam.conditions.Integral ∧ registry.validate forTeam.conditions = .ok () ∧
    Client.allows ⟨"http://catalog"⟩
      ((Owner.ofResources pluginId resourceType registry sample?).exchange Filter.toJson
        "http://catalog")
      "component:default/service-a" (.conditional forTeam) = true := by
  have integral : forTeam.conditions.Integral := by
    intro k hk
    have leaves : forTeam.conditions.leaves
        = [ownedBy ["group:default/team-a"], ownedBy [], ownedBy ["group:default/team-a"]] := rfl
    rw [leaves] at hk
    simp only [List.mem_cons, List.not_mem_nil, or_false] at hk
    rcases hk with rfl | rfl | rfl <;> simp [ownedBy]
  have valid : registry.validate forTeam.conditions = .ok () := by decide
  have shallow : (ApplyRequest.toJson ⟨"component:default/service-a", forTeam.resourceType,
      forTeam.conditions⟩).depth ≤ 127 := by decide
  obtain ⟨r, found, holds⟩ : ∃ r, sample? "component:default/service-a" = some r ∧
      (PolicyDecision.conditional forTeam).allows registry r = true := ⟨_, rfl, by decide⟩
  have same := (asking_allows_no_more ⟨"http://catalog"⟩ pluginId resourceType registry sample?
    Filter.toJson "component:default/service-a" (.conditional forTeam)
    (fun k hk => by cases hk; exact integral)).2 forTeam r rfl rfl valid shallow found
  exact ⟨integral, valid, same.trans holds⟩

end Catalog

end Permit
