-- Extending a registry changes nothing that the registry could interpret: only where it did not
-- know the rule of a condition may the extension find something else.
import Permit.Proofs.Registration

namespace Permit

open Criteria Json

variable {R Q α : Type}

namespace Registry

variable {g h : Registry R Q} {k : Condition} {c : Criteria Condition}

/-! ## Meanings that stay -/

/-- The registry has the rule of the condition. -/
def Knows (g : Registry R Q) (k : Condition) : Prop := ∃ rule ∈ g.rules, rule.name = k.rule

/-- A registry that grows keeps the meaning of what it knows. -/
theorem Grows.meaning_eq (grown : g.Grows h) (known : g.Knows k) : h.meaning k = g.meaning k := by
  obtain ⟨rule, inside, named⟩ := known
  rw [meaning_of_mem inside named, meaning_of_mem (grown.keeps inside) named]

theorem knows_of_ok {m : Meaning R Q} (found : g.meaning k = .ok m) : g.Knows k := by
  obtain ⟨rule, inside, named, _⟩ := exists_rule_of_meaning found
  exact ⟨rule, inside, named⟩

/-- In a registry of typed rules a condition at fault has a rule, or this is the fault. -/
theorem Typed.knows_or_unknown (typed : g.Typed) {e : RuleError} (failed : g.meaning k = .error e) :
    g.Knows k ∨ e = .unknownRule k.rule ∧ g.contains k.rule = false := by
  cases typed.meaning_eq_error_iff.1 failed with
  | unknown unknown =>
    refine .inr ⟨rfl, Bool.eq_false_iff.2 fun known => ?_⟩
    obtain ⟨rule, inside, named⟩ := List.mem_map.1 (contains_iff.1 known)
    exact unknown rule inside named
  | undecoded inside named _ => exact .inl ⟨_, inside, named⟩

/-! ## Results that stay -/

/-- A result stays unless it was that the registry does not know a rule. -/
structure Kept (g : Registry R Q) (before after : Except RuleError α) : Prop where
  result : ∀ a, before = .ok a → after = .ok a
  undecoded : ∀ rule reason, before = .error (.invalidParams rule reason) →
    after = .error (.invalidParams rule reason)
  changed : after ≠ before → ∃ rule, before = .error (.unknownRule rule) ∧ g.contains rule = false

theorem kept_of_eq {before after : Except RuleError α} (same : after = before) :
    g.Kept before after where
  result _ h := same.trans h
  undecoded _ _ h := same.trans h
  changed other := absurd same other

theorem kept_of_unknown {before after : Except RuleError α} {rule : String}
    (unknown : before = .error (.unknownRule rule)) (missing : g.contains rule = false) :
    g.Kept before after where
  result _ h := by
    rw [unknown] at h
    cases h
  undecoded _ _ h := by
    rw [unknown] at h
    cases h
  changed _ := ⟨rule, unknown, missing⟩

/-- What the registry says of a condition and a resource. -/
def decision (g : Registry R Q) (r : R) (k : Condition) : Except RuleError Bool :=
  (g.meaning k).map fun m => m.holds r

theorem knows_of_decision {r : R} (answered : ∃ b, g.decision r k = .ok b) : g.Knows k := by
  obtain ⟨b, answer⟩ := answered
  unfold decision at answer
  cases found : g.meaning k with
  | ok m => exact knows_of_ok found
  | error e =>
    rw [found] at answer
    cases answer

/-- The walk asks the extension as it asks the registry, up to a rule that is not known. -/
theorem Grows.kept_apply (grown : g.Grows h) (typed : g.Typed) (c : Criteria Condition) (r : R) :
    g.Kept (g.apply c r) (h.apply c r) := by
  obtain ⟨asked, _, ends, walks⟩ := exists_asked (g.decision r) c
  have same (each : ∀ x ∈ asked, g.Knows x.1) : h.apply c r = g.apply c r := by
    have agrees : Agrees (g.decision r) (h.decision r) asked := fun x hx => by
      rw [decision, decision, grown.meaning_eq (each x hx)]
    have walked := congrArg Prod.fst (walks (h.decision r) agrees)
    rwa [walk_fst] at walked
  have result : g.apply c r = c.tryEvaluate (g.decision r) := rfl
  rw [← result] at ends
  generalize outcome : g.apply c r = before at ends same
  cases ends with
  | answer answered => exact kept_of_eq (same fun x hx => knows_of_decision (answered x hx))
  | @error e before last answered failed =>
    rcases typed.knows_or_unknown (map_eq_error_iff.1 failed) with known | ⟨rfl, missing⟩
    · refine kept_of_eq (same fun x hx => ?_)
      rcases List.mem_append.1 hx with hx | hx
      · exact knows_of_decision (answered x hx)
      · rwa [List.mem_singleton.1 hx]
    · exact kept_of_unknown rfl missing

/-- Criteria that are interpreted are interpreted with the same meanings in an extension. -/
theorem Grows.interprets (grown : g.Grows h) {pairs : Criteria (Condition × Meaning R Q)}
    (interprets : g.Interprets pairs c) : h.Interprets pairs c where
  conditions := interprets.conditions
  meanings x hx := by
    have found := interprets.meanings x hx
    rw [grown.meaning_eq (knows_of_ok found), found]

/-- What fails with the first condition at fault, and is settled by the meanings else, stays. -/
theorem Grows.kept_of_first (grown : g.Grows h) (typed : g.Typed)
    {before after : Except RuleError α}
    (failed : ∀ e, before = .error e ↔ FirstError g.meaning c.leaves e)
    (failed' : ∀ e, after = .error e ↔ FirstError h.meaning c.leaves e)
    (settled : g.validate c = .ok () → after = before) : g.Kept before after := by
  rcases results_or_firstError g.meaning c.leaves with each | ⟨e, first⟩
  · exact kept_of_eq (settled (validate_eq_ok_iff.2 each))
  · obtain ⟨earlier, k, later, split, each, fault⟩ := first
    have isError := (failed e).2 ⟨earlier, k, later, split, each, fault⟩
    rcases typed.knows_or_unknown fault with known | ⟨rfl, missing⟩
    · refine kept_of_eq (isError ▸ (failed' e).2 ⟨earlier, k, later, split, fun b hb => ?_, ?_⟩)
      · obtain ⟨m, found⟩ := each b hb
        exact ⟨m, by rw [grown.meaning_eq (knows_of_ok found), found]⟩
      · rw [grown.meaning_eq known, fault]
    · exact kept_of_unknown isError missing

theorem Grows.toQuery_eq (grown : g.Grows h) (valid : g.validate c = .ok ()) :
    h.toQuery c = g.toQuery c := by
  obtain ⟨pairs, interprets⟩ := exists_interprets valid
  rw [interprets.toQuery, (grown.interprets interprets).toQuery]

theorem Grows.validate_eq (grown : g.Grows h) (valid : g.validate c = .ok ()) :
    h.validate c = g.validate c := by
  obtain ⟨pairs, interprets⟩ := exists_interprets valid
  rw [valid, validate_of_toQuery (grown.interprets interprets).toQuery]

end Registry

/-! ## The law of extensions -/

/-- An extension decides, lowers and checks criteria as the registry of typed rules that it grew
from, unless this did not know the rule of some condition and said so. Criteria that the registry
finds valid come to the same in both. -/
theorem an_extension_changes_only_what_was_unknown (base extended : Registry R Q)
    (typed : base.Typed) (grown : base.Grows extended) (c : Criteria Condition) :
    (∀ r, base.Kept (base.apply c r) (extended.apply c r)) ∧
    base.Kept (base.toQuery c) (extended.toQuery c) ∧
    base.Kept (base.validate c) (extended.validate c) ∧
    (base.validate c = .ok () → (∀ r, extended.apply c r = base.apply c r) ∧
      extended.toQuery c = base.toQuery c ∧ extended.validate c = base.validate c) := by
  refine ⟨grown.kept_apply typed c, ?_, ?_, fun valid => ⟨fun r => ?_, grown.toQuery_eq valid,
    grown.validate_eq valid⟩⟩
  · exact grown.kept_of_first typed (fun _ => Registry.toQuery_eq_error_iff)
      (fun _ => Registry.toQuery_eq_error_iff) grown.toQuery_eq
  · exact grown.kept_of_first typed (fun _ => Registry.validate_eq_error_iff)
      (fun _ => Registry.validate_eq_error_iff) grown.validate_eq
  · obtain ⟨b, answer⟩ := Registry.apply_of_validate valid r
    rw [answer, (grown.kept_apply typed c r).result b answer]

namespace Catalog

theorem grows_extendedRegistry : registry.Grows extendedRegistry := by
  unfold extendedRegistry
  split
  · next extended => exact .extend .same extended
  · exact .same

/-- Criteria with a rule that only the extension knows, behind a condition that settles them for
the team. -/
def withAnnotation : Criteria Condition :=
  .any [.leaf (ownedBy ["group:default/team-a"]),
    .leaf ⟨"HAS_ANNOTATION", [.str "backstage.io/techdocs-ref"], rfl, by simp [Value.Canonical]⟩]

/-- The decision for a resource of the team stays, and the error of the whole goes. -/
theorem an_annotation_is_known_later : registry.Typed ∧ registry.Grows extendedRegistry ∧
    (∃ e ∈ samples, registry.apply withAnnotation e = .ok true ∧
      extendedRegistry.apply withAnnotation e = .ok true) ∧
    registry.validate withAnnotation = .error (.unknownRule "HAS_ANNOTATION") ∧
    extendedRegistry.validate withAnnotation = .ok () ∧
    extendedRegistry.toQuery forTeam.conditions = registry.toQuery forTeam.conditions := by
  have stays := an_extension_changes_only_what_was_unknown registry extendedRegistry typed_registry
    grows_extendedRegistry
  obtain ⟨e, inside, holds⟩ : ∃ e ∈ samples, registry.apply withAnnotation e = .ok true := by decide
  have valid : registry.validate forTeam.conditions = .ok () := by decide
  exact ⟨typed_registry, grows_extendedRegistry,
    ⟨e, inside, holds, ((stays withAnnotation).1 e).result true holds⟩, by decide, by decide,
    ((stays forTeam.conditions).2.2.2 valid).2.1⟩

end Catalog

end Permit
