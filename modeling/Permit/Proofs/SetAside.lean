-- Documents and conditions by their parts: what a value that was set aside is read as, and that a
-- decoder finds the same.
import Permit.Condition
import Permit.Criteria.Document
import Permit.Proofs.Json.Forms
import Permit.Proofs.Regroup

namespace Permit.Criteria

open Json

variable {α : Type}

/-! ## Values that were set aside -/

theorem gives_one_iff {name : String} {x v : Value} :
    Gives [(name, x)] v ↔ v = .obj [(name, x)] ∨ v = .arr [x] := by
  constructor
  · intro h
    cases h with
    | named same => exact .inl (by rw [List.perm_singleton.1 same])
    | listed => exact .inr rfl
  · rintro (rfl | rfl)
    · exact .named (.refl _)
    · exact .listed

section SetAside

variable {leaf? : Value → Option α}

/-- What is read from a value that gives one list, and from no other value. -/
theorem one_list_eq_some_iff {name : String} {readAll : List Value → Option (List (Criteria α))}
    {group : List (Criteria α) → Criteria α} {v : Value} {c : Criteria α} :
    (match v with
      | .obj [(member, .arr items)] =>
        if member = name then (readAll items).map group else none
      | .arr [.arr items] => (readAll items).map group
      | _ => none) = some c ↔
    ∃ vs cs, Gives [(name, .arr vs)] v ∧ readAll vs = some cs ∧ group cs = c := by
  simp only [gives_one_iff]
  split
  · next member items =>
    by_cases named : member = name
    · simp [named]
    · simp [named]
  · next items => simp
  · next object array =>
    constructor
    · intro h
      cases h
    · rintro ⟨vs, cs, rfl | rfl, -⟩
      · exact absurd rfl (object name vs)
      · exact absurd rfl (array vs)

theorem nested?_eq_some_iff {v : Value} {c : Criteria α} :
    nested? leaf? v = some c ↔
      ∃ vs cs, Gives [("anyOf", .arr vs)] v ∧ conjunctions? leaf? vs = some cs ∧ any cs = c := by
  unfold nested?
  exact one_list_eq_some_iff

theorem conjunction?_eq_some_iff {v : Value} {c : Criteria α} :
    conjunction? leaf? v = some c ↔
      ∃ vs cs, Gives [("allOf", .arr vs)] v ∧ nodes? leaf? vs = some cs ∧ all cs = c := by
  unfold conjunction?
  exact one_list_eq_some_iff

/-- A list is read item by item. -/
theorem forall₂_of_reader {read : Value → Option (Criteria α)}
    {readAll : List Value → Option (List (Criteria α))} (nil : readAll [] = some [])
    (cons : ∀ v rest, readAll (v :: rest) = match read v with
      | none => none
      | some c => (readAll rest).map (c :: ·)) {vs : List Value} {cs : List (Criteria α)} :
    readAll vs = some cs ↔ List.Forall₂ (fun v c => read v = some c) vs cs := by
  induction vs generalizing cs with
  | nil => cases cs <;> simp [nil]
  | cons v rest ih =>
    rw [cons, List.forall₂_cons_left_iff]
    simp only [← ih]
    cases read v with
    | none => simp
    | some c => cases readAll rest <;> simp [eq_comm]

theorem conjunctions?_eq_some_iff {vs : List Value} {cs : List (Criteria α)} :
    conjunctions? leaf? vs = some cs ↔
      List.Forall₂ (fun v c => conjunction? leaf? v = some c) vs cs :=
  forall₂_of_reader rfl fun _ _ => rfl

theorem nodes?_eq_some_iff {vs : List Value} {cs : List (Criteria α)} :
    nodes? leaf? vs = some cs ↔ List.Forall₂ (fun v c => node? leaf? v = some c) vs cs :=
  forall₂_of_reader rfl fun _ _ => rfl

/-- A node is nested if it can be, and else a leaf. -/
theorem node?_eq_some_iff {v : Value} {c : Criteria α} :
    node? leaf? v = some c ↔
      nested? leaf? v = some c ∨ nested? leaf? v = none ∧ ∃ a, leaf? v = some a ∧ leaf a = c := by
  unfold node?
  cases nested? leaf? v <;> simp

theorem node?_of_leaf {v : Value} {a : α} (read : leaf? v = some a)
    (apart : nested? leaf? v = none) : node? leaf? v = some (leaf a) :=
  node?_eq_some_iff.2 (.inr ⟨apart, a, read, rfl⟩)

theorem nested?_ne_leaf (v : Value) (a : α) : nested? leaf? v ≠ some (leaf a) := by
  intro h
  obtain ⟨vs, cs, -, -, same⟩ := nested?_eq_some_iff.1 h
  cases same

theorem nested?_ne_all (v : Value) (cs : List (Criteria α)) : nested? leaf? v ≠ some (all cs) := by
  intro h
  obtain ⟨vs, ds, -, -, same⟩ := nested?_eq_some_iff.1 h
  cases same

end SetAside

/-! ## Lists of parts -/

section Parts

variable {β γ : Type} {R S : β → γ → Prop} {bs : List β} {cs : List γ}

theorem forall₂_imp_right (h : ∀ c ∈ cs, ∀ b, R b c → S b c) (all : List.Forall₂ R bs cs) :
    List.Forall₂ S bs cs := by
  induction all with
  | nil => exact .nil
  | cons first _ ih => exact .cons (h _ (by simp) _ first) (ih fun c hc => h c (by simp [hc]))

theorem forall₂_congr_right (h : ∀ c ∈ cs, ∀ b, R b c ↔ S b c) :
    List.Forall₂ R bs cs ↔ List.Forall₂ S bs cs :=
  ⟨forall₂_imp_right fun c hc b => (h c hc b).1, forall₂_imp_right fun c hc b => (h c hc b).2⟩

theorem exists_of_mem_left {b : β} (all : List.Forall₂ R bs cs) (hb : b ∈ bs) :
    ∃ c ∈ cs, R b c := by
  induction all with
  | nil => cases hb
  | cons first _ ih =>
    rcases List.mem_cons.1 hb with rfl | hb
    · exact ⟨_, List.mem_cons_self, first⟩
    · obtain ⟨c, hc, later⟩ := ih hb
      exact ⟨c, List.mem_cons_of_mem _ hc, later⟩

/-- A list is in relation to some list if each of its items is to some item. -/
theorem exists_forall₂_iff : (∃ cs, List.Forall₂ R bs cs) ↔ ∀ b ∈ bs, ∃ c, R b c := by
  constructor
  · rintro ⟨cs, all⟩ b hb
    obtain ⟨c, _, h⟩ := exists_of_mem_left all hb
    exact ⟨c, h⟩
  · intro each
    induction bs with
    | nil => exact ⟨[], .nil⟩
    | cons b rest ih =>
      obtain ⟨c, first⟩ := each b List.mem_cons_self
      obtain ⟨cs, later⟩ := ih fun b hb => each b (List.mem_cons_of_mem _ hb)
      exact ⟨c :: cs, .cons first later⟩

end Parts

/-! ## The groups of what is read -/

/-- What is read has the groups of a document already. -/
theorem node?_settled {leaf? : Value → Option α} (c : Criteria α) : ∀ v,
    (node? leaf? v = some c → asNode c = c ∧ asConjunction c = .all [c]) ∧
    (conjunction? leaf? v = some c → asConjunction c = c) := by
  -- No child changes, whatever value it was read from.
  have same {f : Criteria α → Criteria α} {R : Value → Criteria α → Prop} {vs : List Value}
      {cs : List (Criteria α)} (ih : ∀ c ∈ cs, ∀ v, R v c → f c = c)
      (each : List.Forall₂ R vs cs) : cs.map f = cs := by
    refine (List.map_congr_left fun c hc => ?_).trans (List.map_id cs)
    obtain ⟨v, _, read⟩ := exists_of_mem_left (List.Forall₂.flip each) hc
    exact ih c hc v read
  induction c with
  | leaf a =>
    refine fun v => ⟨fun _ => ⟨by rw [asNode], by rw [asConjunction]⟩, fun h => ?_⟩
    obtain ⟨_, _, _, _, other⟩ := conjunction?_eq_some_iff.1 h
    cases other
  | all cs ih =>
    refine fun v => ⟨fun h => ?_, fun h => ?_⟩
    · rcases node?_eq_some_iff.1 h with h | ⟨_, a, _, other⟩
      · exact absurd h (nested?_ne_all v cs)
      · cases other
    · obtain ⟨vs, ds, _, read, other⟩ := conjunction?_eq_some_iff.1 h
      cases other
      rw [asConjunction, asNodes_eq,
        same (fun d hd w read => ((ih d hd w).1 read).1) (nodes?_eq_some_iff.1 read)]
  | any cs ih =>
    refine fun v => ⟨fun h => ?_, fun h => ?_⟩
    · rcases node?_eq_some_iff.1 h with h | ⟨_, a, _, other⟩
      · obtain ⟨vs, ds, _, read, other⟩ := nested?_eq_some_iff.1 h
        cases other
        rw [asNode, asConjunction, asConjunctions_eq,
          same (fun d hd w => (ih d hd w).2) (conjunctions?_eq_some_iff.1 read)]
        exact ⟨rfl, rfl⟩
      · cases other
    · obtain ⟨_, _, _, _, other⟩ := conjunction?_eq_some_iff.1 h
      cases other

/-! ## Decoders -/

section Decoding

variable {d : Decoder α} {origin : Origin} {v : Value} {c : Criteria α}

theorem decode_node_iff :
    (nodeDecoder d).decode origin v.toDraft = .ok c ↔ node? d.ofBuffer? v = some c := by
  simp only [nodeDecoder, Value.settle_toDraft]
  cases node? d.ofBuffer? v <;> simp [Decoder.mismatch]

theorem decode_conjunction_iff :
    (conjunctionDecoder d).decode origin v.toDraft = .ok c ↔
      conjunction? d.ofBuffer? v = some c := by
  simp only [conjunctionDecoder, Record.decode_one_list_iff, decode_node_iff,
    conjunction?_eq_some_iff, nodes?_eq_some_iff]

/-- A document decodes as it is read after it was set aside. -/
theorem decode_document_iff :
    (Criteria.decoder d).decode origin v.toDraft = .ok c ↔ nested? d.ofBuffer? v = some c := by
  simp only [Criteria.decoder, Record.decode_one_list_iff, decode_conjunction_iff,
    nested?_eq_some_iff, conjunctions?_eq_some_iff]

end Decoding

end Permit.Criteria

namespace Permit

open Json

/-! ## Conditions -/

/-- The value gives a condition: its rule, and its parameters unless there are none. No condition
has a reserved name, so a value with such a name gives none. -/
inductive IsCondition (gives : List (String × Value) → Value → Prop) : Value → Condition → Prop
  | full {v k params} : gives [("rule", .str k.rule), ("params", .arr params)] v →
      k.params = Value.normalizeItems params → IsCondition gives v k
  | bare {v k} : gives [("rule", .str k.rule)] v → k.params = [] → IsCondition gives v k

theorem Condition.of_eq_ok_iff {rule : String} {params : List Value} {k : Condition} :
    Condition.of rule params = .ok k ↔ k.rule = rule ∧ k.params = Value.normalizeItems params := by
  unfold Condition.of
  split
  · next permitted =>
    constructor
    · intro h
      cases h
      exact ⟨rfl, rfl⟩
    · rintro ⟨rfl, same⟩
      obtain ⟨rule, params, _, _⟩ := k
      cases same
      rfl
  · next reserved =>
    constructor
    · intro h
      cases h
    · rintro ⟨rfl, -⟩
      exact absurd k.permitted reserved

/-- A condition decodes from what gives it. -/
theorem Condition.decode_iff {origin : Origin} {v : Value} {k : Condition} :
    Condition.decoder.decode origin v.toDraft = .ok k ↔ IsCondition Gives v k := by
  have apart : ("rule" : String) ≠ "params" := by decide
  have settled (p : String × List Value) :
      (Condition.of p.1 p.2).mapError (fun e => Mismatch.rejected e.message) = .ok k ↔
        k.rule = p.1 ∧ k.params = Value.normalizeItems p.2 := by
    rw [← Condition.of_eq_ok_iff]
    cases Condition.of p.1 p.2 <;> simp [Except.mapError]
  rw [Condition.decoder, decode_tryMap_iff]
  simp only [settled, Record.decode_two_iff apart, decode_string_iff, decode_values_iff]
  constructor
  · rintro ⟨⟨rule, params⟩, ⟨_, rfl, fields⟩, rfl, canonical⟩
    rcases fields with ⟨given, none⟩ | ⟨_, given, vs, rfl, same⟩
    · rw [← none] at canonical
      exact .bare given canonical
    · dsimp only at same
      rw [← same, Value.normalizeItems_of_canonical _ (Value.canonical_normalizeItems vs)]
        at canonical
      exact .full given canonical
  · intro h
    have self := Value.normalizeItems_of_canonical k.params
      (Value.canonicalItems_iff.2 k.canonical)
    refine ⟨(k.rule, k.params), ⟨_, rfl, ?_⟩, rfl, self.symm⟩
    cases h with
    | full given same => exact .inr ⟨_, given, _, rfl, same.symm⟩
    | bare given none => exact .inl ⟨given, none.symm⟩

/-- What gives a condition gives no list of conjunctions. -/
theorem IsCondition.not_list {v : Value} {k : Condition} (h : IsCondition Gives v k)
    {name : String} {vs : List Value} : ¬ Gives [(name, .arr vs)] v := by
  have rule {fields : List (String × Value)} {r : String}
      (given : Gives (("rule", .str r) :: fields) v) : ¬ Gives [(name, .arr vs)] v := by
    rw [Criteria.gives_one_iff]
    rintro (rfl | rfl)
    · cases given with
      | named same =>
        have inside := same.mem_iff.2 List.mem_cons_self
        simp at inside
    · cases given
  cases h with
  | full given _ => exact rule given
  | bare given _ => exact rule given

end Permit
