-- What a binder makes of parameters is decided with them by its own rule, in the registry that
-- took the rule and in each that grows from it, also after it was sent or printed.
import Permit.Proofs.Conditions
import Permit.Proofs.Interpreters
import Permit.Proofs.Parameters

namespace Permit

open Json

variable {P R Q : Type}

/-! ## Growing registries -/

namespace Registry

variable {g h : Registry R Q}

theorem register_eq_ok {rule : TypedRule P R Q} {f : Binder P}
    (registered : g.register rule = .ok (f, h)) :
    f = Binder.of rule ∧ g.add rule.erase = .ok h := by
  unfold register at registered
  cases added : g.add rule.erase with
  | error e =>
    rw [added] at registered
    cases registered
  | ok h' =>
    rw [added] at registered
    cases registered
    exact ⟨rfl, rfl⟩

/-- The registries that come of one: rules were added one by one, typed or not, or many at
once. What cannot be added leaves the registry as it is. -/
inductive Grows (g : Registry R Q) : Registry R Q → Prop
  | same : Grows g g
  | add {h h' : Registry R Q} {rule : Rule R Q} : Grows g h → h.add rule = .ok h' → Grows g h'
  | extend {h h' : Registry R Q} {rules : List (Rule R Q)} : Grows g h →
      h.extend rules = .ok h' → Grows g h'

/-- A registry that grows keeps its rules. -/
theorem Grows.keeps (grown : g.Grows h) {r : Rule R Q} (known : r ∈ g.rules) : r ∈ h.rules := by
  induction grown with
  | same => exact known
  | add _ added ih => exact known_of_add added ih
  | extend _ extended ih =>
    exact extend_induction (fun _ added known => known_of_add added known) ih extended

/-- The criteria hold for the resources that the rule holds for with the parameters, and are
lowered to the fragment that it makes of them. -/
structure Decides (g : Registry R Q) (c : Criteria Condition) (rule : TypedRule P R Q) (p : P) :
    Prop where
  holds : ∀ r, g.apply c r = .ok (rule.holds p r)
  lowered : g.toQuery c = .ok (.leaf (rule.query p))

theorem Reads.decides {k : Condition} {rule : TypedRule P R Q} {p : P} (reads : g.Reads k rule p) :
    g.Decides (.leaf k) rule p where
  holds r := by
    rw [apply, Criteria.tryEvaluate, Criteria.evaluateM, reads.meaning]
    rfl
  lowered := by
    rw [toQuery, Criteria.tryMap, Criteria.mapM_leaf, reads.meaning]
    rfl

end Registry

/-! ## Bound conditions -/

/-- Where the name is free and the parameters can be written, they are bound as they are. -/
theorem Binder.exists_bind (f : Binder P) {p : P} {params : List Value}
    (permitted : isReserved f.rule = false) (encoded : encodeParams f.params p = .ok params) :
    ∃ k, f.bind p = .ok k ∧ k.rule = f.rule ∧ k.params = params := by
  have same : Value.normalizeItems params = params := Value.normalizeItems_of_canonical params
    (Value.canonicalItems_iff.2 (canonical_of_encodeParams encoded))
  refine ⟨⟨f.rule, Value.normalizeItems params, permitted,
    Value.canonical_of_mem_normalizeItems⟩, ?_, rfl, same⟩
  simp [bind, permitted, encoded, Condition.of]

/-- A condition that is sent as a value arrives as it is. -/
theorem Condition.decode_value (k : Condition) :
    Condition.decoder.ofValue k.toJson.normalize = .ok k := by
  have written : k.toJson.normalize = .obj [("params", .arr k.params), ("rule", .str k.rule)] :=
    Criteria.LeafForm.write_condition k
  rw [written]
  exact Criteria.LeafForm.decode_condition k .value _ (.swap _ _ _)

/-- A condition that can be spelled is read back from its text. -/
theorem Criteria.ofText_condition {k : Condition} (spellable : Expression.Grammar.Spellable k) :
    ofText (toString k) = .ok (.leaf k) := by
  have writable : Writable (.leaf k) := ⟨by simpa [leaves] using spellable, by simp [parens]⟩
  have alone : asText (Criteria.leaf k) = .leaf k := Tidy.asText_eq (.leaf k)
  rw [← toString_leaf, ofText_toString writable, alone]

/-! ## The law of binding -/

/-- A rule that was registered decides what its binder makes. For parameters that read back and
are not mistaken for others, binding succeeds, and in each registry that grows from then on the
condition holds for the resources that the rule holds for with these parameters, and is lowered
to the fragment that it makes of them. So is the condition that arrives when it is sent as a
value, and, where the rule has a name of the grammar and no parameter nests too deep, what is
read from its text. -/
theorem what_is_bound_is_decided (g registered : Registry R Q) (rule : TypedRule P R Q)
    (f : Binder P) (p : P) (v : Value) (taken : g.register rule = .ok (f, registered))
    (written : rule.params.toValue p = .ok v) (reads : rule.params.decoder.ofValue v = .ok p)
    (unmistaken : Unmistaken rule.params p) :
    ∃ k, f.bind p = .ok k ∧ ∀ h, registered.Grows h →
      h.Decides (.leaf k) rule p ∧
      (∃ k', Condition.decoder.ofValue k.toJson.normalize = .ok k' ∧
        h.Decides (.leaf k') rule p) ∧
      (Expression.Grammar.Name rule.name.toList → (∀ v ∈ k.params, v.depth ≤ 64) →
        ∃ c, Criteria.ofText (toString k) = .ok c ∧ h.Decides c rule p) := by
  obtain ⟨rfl, added⟩ := Registry.register_eq_ok taken
  obtain ⟨permitted, rules⟩ := Registry.add_eq_ok added
  obtain ⟨k, bound, name, params⟩ := Binder.exists_bind (.of rule) permitted
    (encodeParams_of_toValue written)
  obtain ⟨q, decoded, -, itself⟩ := decodeParams_encodeParams written reads
  obtain rfl : q = p := itself.2 unmistaken
  refine ⟨k, bound, fun h grown => ?_⟩
  have decides : h.Decides (.leaf k) rule q := by
    apply Registry.Reads.decides
    exact ⟨grown.keeps ((rules _).2 (.inl rfl)), name.symm, by rw [params, decoded]⟩
  refine ⟨decides, ⟨k, k.decode_value, decides⟩, fun isName shallow => ?_⟩
  exact ⟨_, Criteria.ofText_condition ⟨name ▸ isName, shallow⟩, decides⟩

namespace Catalog

/-- The rule about owners, bound to a team before the other rules were added, decides for the
team in the whole catalog, also when the condition is printed and read in between. -/
theorem an_owner_stays_bound : ∃ f first whole k,
    Registry.empty.register isOwner = .ok (f, first) ∧
    first.extend [isEntityKind.erase, isComponentType.erase] = .ok whole ∧
    f.bind ["group:default/team-a"] = .ok k ∧
    ∃ c, Criteria.ofText (toString k) = .ok c ∧
      whole.Decides c isOwner ["group:default/team-a"] := by
  obtain ⟨f, first, added⟩ : ∃ f first, Registry.empty.register isOwner = .ok (f, first) :=
    ⟨_, _, rfl⟩
  obtain ⟨whole, extended⟩ :
      ∃ whole, first.extend [isEntityKind.erase, isComponentType.erase] = .ok whole := by
    cases added
    exact ⟨_, rfl⟩
  have written : isOwner.params.toValue ["group:default/team-a"]
      = .ok (.arr [.arr [.str "group:default/team-a"]]) := rfl
  have reads : isOwner.params.decoder.ofValue (.arr [.arr [.str "group:default/team-a"]])
      = .ok ["group:default/team-a"] := rfl
  obtain ⟨k, bound, decides⟩ := what_is_bound_is_decided .empty first isOwner f _ _ added written
    reads (unmistaken_of_array written reads)
  have isName : Expression.Grammar.Name isOwner.name.toList :=
    .mk rfl (List.all_eq_true.1 (by decide))
  have shallow : ∀ v ∈ k.params, v.depth ≤ 64 := by
    cases added
    cases bound
    decide
  exact ⟨f, first, whole, k, added, extended, bound,
    (decides whole (.extend .same extended)).2.2 isName shallow⟩

end Catalog

end Permit
