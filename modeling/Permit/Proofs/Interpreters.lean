-- The three interpretations of criteria by a registry of typed rules. They take the same
-- criteria and fail with the error of the same condition, and what the lowered query finds is
-- what the criteria hold for.
import Permit.Proofs.Answers
import Permit.Proofs.Lowering
import Permit.Proofs.Remote

namespace Permit

open Json Criteria

variable {P R Q : Type}

namespace Registry

variable {g : Registry R Q} {k : Condition} {c : Criteria Condition} {e : RuleError}

/-! ## Rules by their names -/

/-- Where no two rules have one name, a rule is found by its name. -/
theorem find?_of_nodup {rules : List (Rule R Q)} (distinct : (rules.map Rule.name).Nodup)
    {rule : Rule R Q} (known : rule ∈ rules) :
    rules.find? (fun r => r.name == rule.name) = some rule := by
  induction rules with
  | nil => cases known
  | cons r rest ih =>
    rw [List.map_cons, List.nodup_cons] at distinct
    rw [List.find?_cons]
    rcases List.mem_cons.1 known with rfl | later
    · rw [beq_self_eq_true]
    · have other : r.name ≠ rule.name := fun same => distinct.1 (same ▸ List.mem_map_of_mem later)
      rw [beq_false_of_ne other]
      exact ih distinct.2 later

theorem find?_name {rules : List (Rule R Q)} (sorted : (rules.map Rule.name).Pairwise (· < ·))
    {rule : Rule R Q} (known : rule ∈ rules) :
    rules.find? (fun r => r.name == rule.name) = some rule :=
  find?_of_nodup (sorted.imp String.ne_of_lt) known

theorem resolve_eq_ok {rule : Rule R Q} (known : rule ∈ g.rules) :
    g.resolve rule.name = .ok rule := by
  rw [resolve, find?_name g.sorted known]

theorem resolve_eq_error {name : String} (unknown : ∀ rule ∈ g.rules, rule.name ≠ name) :
    g.resolve name = .error (.unknownRule name) := by
  have missing : g.rules.find? (fun r => r.name == name) = none := by
    rw [List.find?_eq_none]
    intro rule known
    simpa using unknown rule known
  rw [resolve, missing]

theorem resolve_eq_ok_iff {name : String} {rule : Rule R Q} :
    g.resolve name = .ok rule ↔ rule ∈ g.rules ∧ rule.name = name := by
  constructor
  · intro found
    unfold resolve at found
    split at found
    · next known =>
      cases found
      exact ⟨List.mem_of_find?_eq_some known, by simpa using List.find?_some known⟩
    · cases found
  · rintro ⟨known, rfl⟩
    exact resolve_eq_ok known

/-! ## Adding rules -/

/-- A rule that is added has a free name and comes to the rules that are there. -/
theorem add_eq_ok {rule : Rule R Q} {h : Registry R Q} (added : g.add rule = .ok h) :
    isReserved rule.name = false ∧ ∀ r, r ∈ h.rules ↔ r = rule ∨ r ∈ g.rules := by
  unfold add at added
  split at added
  · cases added
  · next permitted =>
    split at added
    · cases added
    · cases added
      exact ⟨by simpa using permitted, fun r => mem_insertRule⟩

theorem known_of_add {rule r : Rule R Q} {h : Registry R Q} (added : g.add rule = .ok h)
    (known : r ∈ g.rules) : r ∈ h.rules :=
  ((add_eq_ok added).2 r).2 (.inr known)

/-- What each rule that is added preserves is preserved when many are. -/
theorem extend_induction {motive : Registry R Q → Prop} {rules : List (Rule R Q)}
    {h : Registry R Q}
    (step : ∀ {g h rule}, rule ∈ rules → g.add rule = .ok h → motive g → motive h)
    (start : motive g) (extended : g.extend rules = .ok h) : motive h := by
  induction rules generalizing g with
  | nil =>
    cases extended
    exact start
  | cons rule rest ih =>
    rw [Registry.extend] at extended
    split at extended
    · cases extended
    · next added =>
      exact ih (fun hr => step (List.mem_cons_of_mem rule hr))
        (step List.mem_cons_self added start) extended

/-! ## Registries of typed rules -/

/-- Every rule is one over typed parameters. -/
def Typed (g : Registry R Q) : Prop :=
  ∀ rule ∈ g.rules, ∃ (P : Type) (typed : TypedRule P R Q), rule = typed.erase

theorem typed_empty : (empty : Registry R Q).Typed := by
  intro rule known
  cases known

/-- What holds of each rule that is there and of each that is added holds of all of them. -/
theorem forall_of_extend {p : Rule R Q → Prop} {rules : List (Rule R Q)} {h : Registry R Q}
    (there : ∀ rule ∈ g.rules, p rule) (each : ∀ rule ∈ rules, p rule)
    (extended : g.extend rules = .ok h) : ∀ rule ∈ h.rules, p rule := by
  refine extend_induction (motive := fun g => ∀ rule ∈ g.rules, p rule)
    (fun hr added there => ?_) there extended
  intro r known
  rcases ((add_eq_ok added).2 r).1 known with rfl | known
  · exact each _ hr
  · exact there r known

/-- A registry that is built from typed rules has no others. -/
theorem Typed.extend {rules : List (Rule R Q)} {h : Registry R Q} (typed : g.Typed)
    (each : ∀ rule ∈ rules, ∃ (P : Type) (typed : TypedRule P R Q), rule = typed.erase)
    (extended : g.extend rules = .ok h) : h.Typed :=
  forall_of_extend typed each extended

/-- The registry has the typed rule that the condition names, and reads its parameters as
`p`. -/
structure Reads (g : Registry R Q) (k : Condition) (rule : TypedRule P R Q) (p : P) : Prop where
  known : rule.erase ∈ g.rules
  named : rule.name = k.rule
  decoded : decodeParams rule.params k.params = .ok p

/-- What is wrong with a condition: no rule has its name, or the rule of that name does not
read its parameters. -/
inductive Fault (g : Registry R Q) (k : Condition) : RuleError → Prop
  | unknown : (∀ rule ∈ g.rules, rule.name ≠ k.rule) → Fault g k (.unknownRule k.rule)
  | undecoded {P : Type} {rule : TypedRule P R Q} {f : Failure} : rule.erase ∈ g.rules →
      rule.name = k.rule → decodeParams rule.params k.params = .error f →
      Fault g k (.invalidParams k.rule (f.message []))

/-- What is wrong with a condition is that its rule is not known, or that its parameters are
not those of the rule. -/
theorem Fault.cases_rule (fault : g.Fault k e) :
    e = .unknownRule k.rule ∨ ∃ reason, e = .invalidParams k.rule reason := by
  cases fault with
  | unknown _ => exact .inl rfl
  | undecoded _ _ _ => exact .inr ⟨_, rfl⟩

/-- An error is about the rule of the condition at fault. -/
theorem Fault.rule_eq (fault : g.Fault k e) : e.rule = k.rule := by
  cases fault <;> rfl

theorem meaning_of_mem {rule : Rule R Q} (known : rule ∈ g.rules) (named : rule.name = k.rule) :
    g.meaning k = rule.meaning k.params := by
  rw [meaning, resolve_eq_ok_iff.2 ⟨known, named⟩]

/-- A meaning is what the rule of the condition makes of its parameters. -/
theorem exists_rule_of_meaning {m : Meaning R Q} (h : g.meaning k = .ok m) :
    ∃ rule ∈ g.rules, rule.name = k.rule ∧ rule.meaning k.params = .ok m := by
  unfold meaning at h
  split at h
  · cases h
  · next rule resolved =>
    obtain ⟨known, named⟩ := resolve_eq_ok_iff.1 resolved
    exact ⟨rule, known, named, h⟩

theorem meaning_of_known {rule : TypedRule P R Q} (known : rule.erase ∈ g.rules)
    (named : rule.name = k.rule) : g.meaning k = rule.meaning k.params :=
  meaning_of_mem known named

theorem Reads.meaning {rule : TypedRule P R Q} {p : P} (reads : g.Reads k rule p) :
    g.meaning k = .ok ⟨rule.holds p, rule.query p⟩ := by
  rw [meaning_of_known reads.known reads.named, TypedRule.meaning, reads.decoded]

theorem Fault.meaning (fault : g.Fault k e) : g.meaning k = .error e := by
  cases fault with
  | unknown unknown => rw [Registry.meaning, resolve_eq_error unknown]
  | undecoded known named failed =>
    rw [meaning_of_known known named, TypedRule.meaning, failed, named]

/-- A typed rule reads a condition, or something is wrong with it. -/
theorem Typed.reads_or_fault (typed : g.Typed) (k : Condition) :
    (∃ (P : Type) (rule : TypedRule P R Q) (p : P), g.Reads k rule p) ∨ ∃ e, g.Fault k e := by
  by_cases known : ∃ rule ∈ g.rules, rule.name = k.rule
  · obtain ⟨rule, known, named⟩ := known
    obtain ⟨P, rule, rfl⟩ := typed rule known
    rcases decoded : decodeParams rule.params k.params with f | p
    · exact .inr ⟨_, .undecoded known named decoded⟩
    · exact .inl ⟨P, rule, p, known, named, decoded⟩
  · exact .inr ⟨_, .unknown fun rule hr same => known ⟨rule, hr, same⟩⟩

theorem Typed.meaning_eq_ok (typed : g.Typed) {m : Meaning R Q} (h : g.meaning k = .ok m) :
    ∃ (P : Type) (rule : TypedRule P R Q) (p : P), g.Reads k rule p ∧
      m = ⟨rule.holds p, rule.query p⟩ := by
  rcases typed.reads_or_fault k with ⟨P, rule, p, reads⟩ | ⟨e, fault⟩
  · rw [reads.meaning] at h
    exact ⟨P, rule, p, reads, (Except.ok.inj h).symm⟩
  · rw [fault.meaning] at h
    cases h

theorem Typed.meaning_eq_error_iff (typed : g.Typed) :
    g.meaning k = .error e ↔ g.Fault k e := by
  constructor
  · intro h
    rcases typed.reads_or_fault k with ⟨P, rule, p, reads⟩ | ⟨e', fault⟩
    · rw [reads.meaning] at h
      cases h
    · rw [fault.meaning] at h
      cases h
      exact fault
  · exact Fault.meaning

theorem Typed.not_fault_iff (typed : g.Typed) :
    (∀ e, ¬ g.Fault k e) ↔ ∃ m, g.meaning k = .ok m := by
  simp only [← typed.meaning_eq_error_iff]
  cases g.meaning k <;> simp

/-! ## The errors of the interpretations -/

theorem checkAll_eq (g : Registry R Q) (ks : List Condition) :
    g.checkAll ks = (fun _ => ()) <$> ks.mapM g.meaning := by
  induction ks with
  | nil => rfl
  | cons k rest ih =>
    rw [checkAll, List.mapM_cons, ih]
    cases g.meaning k with
    | error e => rfl
    | ok m => cases rest.mapM g.meaning <;> rfl

/-- Checking fails with the error of the first condition that has no meaning. -/
theorem validate_eq_error_iff : g.validate c = .error e ↔ FirstError g.meaning c.leaves e := by
  rw [validate, checkAll_eq, map_eq_error_iff, mapM_eq_error_iff]

/-- So does lowering. -/
theorem toQuery_eq_error_iff : g.toQuery c = .error e ↔ FirstError g.meaning c.leaves e := by
  rw [toQuery, tryMap_eq_error_iff, firstError_map]

theorem validate_leaf_eq_error_iff : g.validate (.leaf k) = .error e ↔ g.meaning k = .error e := by
  rw [validate, leaves, checkAll]
  cases g.meaning k with
  | error e' => simp
  | ok m => simp [checkAll]

theorem validate_eq_ok_iff :
    g.validate c = .ok () ↔ ∀ k ∈ c.leaves, ∃ m, g.meaning k = .ok m := by
  constructor
  · intro valid
    rcases results_or_firstError g.meaning c.leaves with each | ⟨e, failed⟩
    · exact each
    · rw [validate_eq_error_iff.2 failed] at valid
      cases valid
  · intro each
    rcases valid : g.validate c with e | _
    · obtain ⟨before, k, after, split, _, failed⟩ := validate_eq_error_iff.1 valid
      obtain ⟨m, found⟩ := each k (by simp [split])
      rw [failed] at found
      cases found
    · rfl

/-- The condition is the first that the registry cannot interpret, and this is what is wrong with
it. -/
def FirstFault (g : Registry R Q) (c : Criteria Condition) (k : Condition) (e : RuleError) :
    Prop :=
  ∃ before after, c.leaves = before ++ k :: after ∧ (∀ b ∈ before, ∀ e, ¬ g.Fault b e) ∧
    g.Fault k e

theorem FirstFault.fault (first : g.FirstFault c k e) : g.Fault k e := by
  obtain ⟨_, _, _, _, fault⟩ := first
  exact fault

theorem Typed.validate_eq_error_iff (typed : g.Typed) :
    g.validate c = .error e ↔ ∃ k, g.FirstFault c k e := by
  rw [Registry.validate_eq_error_iff]
  simp only [FirstError, FirstFault, typed.not_fault_iff, typed.meaning_eq_error_iff]
  constructor
  · rintro ⟨before, k, after, h⟩
    exact ⟨k, before, after, h⟩
  · rintro ⟨k, before, after, h⟩
    exact ⟨before, k, after, h⟩

theorem Typed.validate_eq_ok_iff (typed : g.Typed) :
    g.validate c = .ok () ↔ ∀ k ∈ c.leaves, ∀ e, ¬ g.Fault k e := by
  simp only [Registry.validate_eq_ok_iff, typed.not_fault_iff]

theorem validate_of_toQuery {q : Criteria Q} (lowered : g.toQuery c = .ok q) :
    g.validate c = .ok () := by
  rcases valid : g.validate c with e | _
  · rw [toQuery_eq_error_iff.2 (validate_eq_error_iff.1 valid)] at lowered
    cases lowered
  · rfl

/-- Deciding fails with the error of some condition. -/
theorem exists_leaf_of_apply {r : R} (failed : g.apply c r = .error e) :
    ∃ k ∈ c.leaves, g.meaning k = .error e := by
  obtain ⟨k, hk, failed⟩ := exists_leaf_of_error failed
  exact ⟨k, hk, map_eq_error_iff.1 failed⟩

/-! ## Criteria with their meanings -/

/-- Criteria whose conditions all have a meaning, each taken together with it. -/
structure Interprets (g : Registry R Q) (pairs : Criteria (Condition × Meaning R Q))
    (c : Criteria Condition) : Prop where
  conditions : pairs.map Prod.fst = c
  meanings : ∀ x ∈ pairs.leaves, g.meaning x.1 = .ok x.2

theorem exists_interprets (valid : g.validate c = .ok ()) : ∃ pairs, g.Interprets pairs c := by
  obtain ⟨pairs, conditions, meanings⟩ := exists_pairs (validate_eq_ok_iff.1 valid)
  exact ⟨pairs, conditions, meanings⟩

variable {pairs : Criteria (Condition × Meaning R Q)}

theorem Interprets.toQuery (h : g.Interprets pairs c) :
    g.toQuery c = .ok (pairs.map fun x => x.2.query) := by
  rw [Registry.toQuery, tryMap, ← h.conditions, mapM_map]
  exact mapM_eq_map fun x hx => by rw [Function.comp_apply, h.meanings x hx]; rfl

theorem Interprets.apply (h : g.Interprets pairs c) (r : R) :
    g.apply c r = .ok (pairs.truth fun x => x.2.holds r) := by
  rw [Registry.apply, tryEvaluate, ← h.conditions, evaluateM_map]
  exact tryEvaluate_eq_truth fun x hx => by rw [Function.comp_apply, h.meanings x hx]; rfl

theorem apply_of_validate (valid : g.validate c = .ok ()) (r : R) :
    ∃ b, g.apply c r = .ok b := by
  obtain ⟨pairs, interprets⟩ := exists_interprets valid
  exact ⟨_, interprets.apply r⟩

theorem toQuery_of_validate (valid : g.validate c = .ok ()) : ∃ q, g.toQuery c = .ok q := by
  obtain ⟨pairs, interprets⟩ := exists_interprets valid
  exact ⟨_, interprets.toQuery⟩

/-- A query is that of criteria whose conditions all have a meaning. -/
theorem interprets_of_toQuery {q : Criteria Q} (lowered : g.toQuery c = .ok q) :
    ∃ pairs, g.Interprets pairs c ∧ pairs.map (fun x => x.2.query) = q := by
  obtain ⟨pairs, interprets⟩ := exists_interprets (validate_of_toQuery lowered)
  rw [interprets.toQuery] at lowered
  exact ⟨pairs, interprets, Except.ok.inj lowered⟩

end Registry

/-! ## The laws of interpretations -/

open Registry

/-- The three interpretations take the same criteria. Checking and lowering fail together,
with what is wrong with the first condition that is at fault. Checked criteria can be decided
for each resource. When deciding fails, it is with the error that checking finds in a single
condition, and checking the whole fails with it or with that of an earlier condition. -/
theorem interpretations_fail_together (g : Registry R Q) (typed : g.Typed)
    (c : Criteria Condition) :
    (g.validate c = .ok () ↔ ∃ q, g.toQuery c = .ok q) ∧
    (∀ e, g.validate c = .error e ↔ g.toQuery c = .error e) ∧
    (∀ e, g.validate c = .error e ↔ ∃ before k after, c.leaves = before ++ k :: after ∧
      (∀ b ∈ before, ∀ e, ¬ g.Fault b e) ∧ g.Fault k e) ∧
    (g.validate c = .ok () → ∀ r, ∃ b, g.apply c r = .ok b) ∧
    ∀ r e, g.apply c r = .error e → ∃ before k after, c.leaves = before ++ k :: after ∧
      g.validate (.leaf k) = .error e ∧
      ∃ first, g.validate c = .error first ∧
        (first = e ∨ ∃ b ∈ before, g.validate (.leaf b) = .error first) := by
  have sound (k : Condition) : (∀ e, ¬ g.Fault k e) ↔ ∃ m, g.meaning k = .ok m := by
    simp only [← typed.meaning_eq_error_iff]
    cases g.meaning k <;> simp
  refine ⟨⟨fun valid => ?_, fun lowered => lowered.elim fun _ => validate_of_toQuery⟩,
    fun e => validate_eq_error_iff.trans toQuery_eq_error_iff.symm, fun e => ?_,
    fun valid r => ?_, fun r e failed => ?_⟩
  · obtain ⟨pairs, interprets⟩ := exists_interprets valid
    exact ⟨_, interprets.toQuery⟩
  · simp only [validate_eq_error_iff, FirstError, sound, typed.meaning_eq_error_iff]
  · obtain ⟨pairs, interprets⟩ := exists_interprets valid
    exact ⟨_, interprets.apply r⟩
  · obtain ⟨k, hk, failed⟩ := exists_leaf_of_apply failed
    obtain ⟨before, after, split⟩ := List.append_of_mem hk
    refine ⟨before, k, after, split, validate_leaf_eq_error_iff.2 failed, ?_⟩
    -- The conditions before `k` all have a meaning, or the first that has none is among them.
    rcases results_or_firstError g.meaning before with each | ⟨first, earlier⟩
    · exact ⟨e, validate_eq_error_iff.2 ⟨before, k, after, split, each, failed⟩, .inl rfl⟩
    · obtain ⟨start, b, rest, rfl, each, isFirst⟩ := earlier
      refine ⟨first, validate_eq_error_iff.2 ⟨start, b, rest ++ k :: after, ?_, each, isFirst⟩,
        .inr ⟨b, by simp, validate_leaf_eq_error_iff.2 isFirst⟩⟩
      rw [split, List.append_assoc, List.cons_append]

namespace Catalog

theorem typed_registry : registry.Typed := by
  unfold registry
  split
  · next extended =>
    refine Registry.typed_empty.extend (fun rule hr => ?_) extended
    simp only [rules, List.mem_cons, List.not_mem_nil, or_false] at hr
    rcases hr with rfl | rfl | rfl
    · exact ⟨_, isEntityKind, rfl⟩
    · exact ⟨_, isComponentType, rfl⟩
    · exact ⟨_, isOwner, rfl⟩
  · exact Registry.typed_empty

/-- Criteria with a rule that the catalog does not have, behind a condition that settles
them for the team. -/
def withOrphans : Criteria Condition :=
  .any [.leaf (ownedBy ["group:default/team-a"]), .leaf ⟨"IS_ORPHAN", [], rfl, by simp⟩]

/-- The unknown rule is found when the criteria are checked and lowered, though the walk over
a resource of the team never reaches it. -/
theorem an_unknown_rule_behind_a_yes : registry.Typed ∧
    registry.toQuery withOrphans = .error (.unknownRule "IS_ORPHAN") ∧
    ∃ e ∈ samples, registry.apply withOrphans e = .ok true := by
  have checked : registry.validate withOrphans = .error (.unknownRule "IS_ORPHAN") := by decide
  exact ⟨typed_registry,
    ((interpretations_fail_together registry typed_registry withOrphans).2.1 _).1 checked,
    by decide⟩

end Catalog

/-- A lowered tree is the tree of criteria with a fragment at the place of each condition, the
one that its rule makes of its parameters. If what a fragment finds is what its condition holds
for, then so it is for the whole; and if a fragment finds no more than that, then nor does the
whole. -/
theorem lowering_finds_what_holds (g : Registry R Q) (typed : g.Typed) (c : Criteria Condition)
    (q : Criteria Q) (lowered : g.toQuery c = .ok q) :
    (∃ both : Criteria (Condition × Q), both.map Prod.fst = c ∧ both.map Prod.snd = q ∧
      ∀ x ∈ both.leaves, ∃ (P : Type) (rule : TypedRule P R Q) (p : P),
        g.Reads x.1 rule p ∧ x.2 = rule.query p) ∧
    ∀ (r : R) (found : Q → Bool),
      ((∀ k ∈ c.leaves, ∀ (P : Type) (rule : TypedRule P R Q) (p : P), g.Reads k rule p →
          found (rule.query p) = true → rule.holds p r = true) →
        q.evaluate found = true → g.apply c r = .ok true) ∧
      ((∀ k ∈ c.leaves, ∀ (P : Type) (rule : TypedRule P R Q) (p : P), g.Reads k rule p →
          found (rule.query p) = rule.holds p r) →
        g.apply c r = .ok (q.evaluate found)) := by
  obtain ⟨pairs, interprets⟩ := exists_interprets (validate_of_toQuery lowered)
  obtain rfl : pairs.map (fun x => x.2.query) = q := by
    rw [interprets.toQuery] at lowered
    exact Except.ok.inj lowered
  have condition : ∀ x ∈ pairs.leaves, x.1 ∈ c.leaves := by
    intro x hx
    rw [← interprets.conditions, leaves_map]
    exact List.mem_map.2 ⟨x, hx, rfl⟩
  have reads : ∀ x ∈ pairs.leaves, ∃ (P : Type) (rule : TypedRule P R Q) (p : P),
      g.Reads x.1 rule p ∧ x.2 = ⟨rule.holds p, rule.query p⟩ :=
    fun x hx => typed.meaning_eq_ok (interprets.meanings x hx)
  refine ⟨⟨pairs.map fun x => (x.1, x.2.query), ?_, ?_, ?_⟩, fun r found => ⟨?_, ?_⟩⟩
  · rw [map_map]
    exact interprets.conditions
  · rw [map_map]
    rfl
  · rw [leaves_map]
    intro y hy
    obtain ⟨x, hx, rfl⟩ := List.mem_map.1 hy
    obtain ⟨P, rule, p, read, same⟩ := reads x hx
    exact ⟨P, rule, p, read, by rw [same]⟩
  · intro less yes
    rw [evaluate_eq_truth, truth_map] at yes
    rw [interprets.apply]
    refine congrArg _ (truth_mono (fun x hx finds => ?_) yes)
    obtain ⟨P, rule, p, read, same⟩ := reads x hx
    rw [Function.comp_apply, same] at finds
    rw [same]
    exact less x.1 (condition x hx) P rule p read finds
  · intro equal
    rw [evaluate_eq_truth, truth_map, interprets.apply]
    refine congrArg _ (truth_congr fun x hx => ?_)
    obtain ⟨P, rule, p, read, same⟩ := reads x hx
    rw [Function.comp_apply, same]
    exact (equal x.1 (condition x hx) P rule p read).symm

namespace Catalog

/-- What a search in the catalog finds by owner: entities with one of the values there. -/
def foundByOwner (e : Entity) : Filter → Bool
  | .isIn _ owners => e.owner.any owners.contains
  | .exists _ => false

/-- The search for the resources of the team finds those that it may see. -/
theorem searching_for_the_team : registry.Typed ∧ ∃ q, registry.toQuery forTeam.conditions = .ok q ∧
    ∀ e, registry.apply forTeam.conditions e = .ok (q.evaluate (foundByOwner e)) := by
  obtain ⟨q, lowered⟩ : ∃ q, registry.toQuery forTeam.conditions = .ok q := ⟨_, rfl⟩
  refine ⟨typed_registry, q, lowered, fun e => ?_⟩
  refine ((lowering_finds_what_holds registry typed_registry _ q lowered).2 e (foundByOwner e)).2
    fun k hk P rule p reads => ?_
  have ours : ∃ claims, registry.meaning k = .ok ⟨isOwner.holds claims, isOwner.query claims⟩ := by
    have leaves : forTeam.conditions.leaves
        = [ownedBy ["group:default/team-a"], ownedBy [], ownedBy ["group:default/team-a"]] := rfl
    rw [leaves] at hk
    simp only [List.mem_cons, List.not_mem_nil, or_false] at hk
    rcases hk with rfl | rfl | rfl <;> exact ⟨_, rfl⟩
  obtain ⟨claims, meaning⟩ := ours
  rw [reads.meaning] at meaning
  obtain ⟨holds, query⟩ := Meaning.mk.inj (Except.ok.inj meaning)
  rw [holds, query]
  rfl

end Catalog

end Permit
