-- Registering rules. Whatever calls the builders get, in extensions and outside, a name stands for
-- the first rule that was offered under it, in what they build and in all that extends it.
import Mathlib.Data.List.Sort
import Mathlib.Tactic.SplitIfs
import Permit.Proofs.Binding

namespace Permit

variable {P R Q : Type}

/-! ## Names by their bytes -/

/-- The bytes of a name in UTF-8. -/
def bytes (s : String) : List UInt8 := s.toByteArray.data.toList

theorem bytes_eq (s : String) : bytes s = s.toList.flatMap String.utf8EncodeChar := by
  rw [bytes, ← String.utf8Encode_toList, List.utf8Encode]
  simp

/-- Numbers below 256 are in the order of the bytes that they make, and decide before the rest. -/
theorem cons_lt {m n : Nat} {xs ys : List UInt8} (byte : n < 256) (first : m ≤ n)
    (later : m = n → xs < ys) : UInt8.ofNat m :: xs < UInt8.ofNat n :: ys := by
  rw [List.cons_lt_cons_iff]
  rcases Nat.lt_or_eq_of_le first with less | rfl
  · refine .inl (UInt8.lt_iff_toNat_lt.2 ?_)
    rwa [UInt8.toNat_ofNat_of_lt' (Nat.lt_trans less byte), UInt8.toNat_ofNat_of_lt' byte]
  · exact .inr ⟨rfl, later rfl⟩

/-- The smaller of two characters has the smaller bytes, whatever follows. -/
theorem encode_lt {c d : Char} (h : c < d) (xs ys : List UInt8) :
    String.utf8EncodeChar c ++ xs < String.utf8EncodeChar d ++ ys := by
  have less : c.val.toNat < d.val.toNat := h
  have last : d.val.toNat < 0x110000 := by
    have valid : d.val.toNat.isValidChar := d.valid
    unfold Nat.isValidChar at valid
    omega
  unfold String.utf8EncodeChar
  generalize c.val.toNat = m at *
  generalize d.val.toNat = n at *
  dsimp only
  -- Either the first bytes tell how many follow, or the numbers are compared byte by byte.
  split_ifs <;>
    simp only [List.cons_append, List.nil_append] <;>
    repeat first
      | omega
      | refine cons_lt (by omega) (by omega) fun _ => ?_

/-- Names are in the order of their bytes. -/
theorem bytes_lt {s t : String} (h : s < t) : bytes s < bytes t := by
  rw [bytes_eq, bytes_eq]
  have chars : s.toList < t.toList := h
  generalize s.toList = cs at chars
  generalize t.toList = ds at chars
  induction chars with
  | @nil d ds =>
    rw [List.flatMap_nil, List.flatMap_cons]
    cases first : String.utf8EncodeChar d with
    | nil => exact absurd first String.utf8EncodeChar_ne_nil
    | cons b bs => exact .nil
  | rel less => exact encode_lt less _ _
  | @cons c cs ds _ ih =>
    rw [List.flatMap_cons, List.flatMap_cons]
    exact List.append_left_lt ih

/-! ## Calls on a builder -/

namespace Registry

variable {g : Registry R Q} {rule : Rule R Q}

theorem contains_iff {name : String} : g.contains name = true ↔ name ∈ g.names := by
  rw [contains, List.contains_iff_mem]

theorem not_mem_names_of_reserved {name : String} (reserved : isReserved name = true) :
    name ∉ g.names := by
  intro known
  obtain ⟨r, hr, rfl⟩ := List.mem_map.1 known
  rw [g.permitted r hr] at reserved
  cases reserved

/-- A rule is refused for its own name or because of one that is there, and is added else. -/
theorem add_cases (g : Registry R Q) (rule : Rule R Q) :
    isReserved rule.name = true ∧ g.add rule = .error (.reservedName rule.name) ∨
    isReserved rule.name = false ∧ rule.name ∈ g.names ∧
      g.add rule = .error (.duplicateRule rule.name) ∨
    isReserved rule.name = false ∧ rule.name ∉ g.names ∧ ∃ h, g.add rule = .ok h := by
  unfold add names
  split
  · next reserved => exact .inl ⟨reserved, rfl⟩
  · next permitted =>
    rw [Bool.not_eq_true] at permitted
    split
    · next taken => exact .inr (.inl ⟨permitted, taken, rfl⟩)
    · next free => exact .inr (.inr ⟨permitted, free, _, rfl⟩)

/-- A registry is its rules, whatever order they came in. -/
theorem eq_of_mem_iff {g h : Registry R Q} (same : ∀ r, r ∈ g.rules ↔ r ∈ h.rules) : g = h := by
  obtain ⟨rules, sorted, _⟩ := g
  obtain ⟨rules', sorted', _⟩ := h
  rw [List.pairwise_map] at sorted sorted'
  have once {rules : List (Rule R Q)} (sorted : rules.Pairwise fun a b => a.name < b.name) :
      rules.Nodup := sorted.imp fun less => ne_of_apply_ne Rule.name (String.ne_of_lt less)
  have perm := (List.perm_ext_iff_of_nodup (once sorted) (once sorted')).2 same
  obtain rfl : rules = rules' := perm.eq_of_pairwise
    (fun a b _ _ less more => absurd (String.lt_trans less more) (String.lt_irrefl _)) sorted
    sorted'
  rfl

/-- What a registry shows of its rules: the names that stand for one, each once and in the order
of their bytes, with what the rules say of themselves, and how many these are. -/
structure Lists (g : Registry R Q) : Prop where
  known : ∀ name, g.contains name = true ↔ ∃ r, g.resolve name = .ok r
  names : ∀ name, name ∈ g.names ↔ ∃ r, g.resolve name = .ok r
  ordered : (g.names.map bytes).Pairwise (· < ·)
  once : g.names.Nodup
  descriptions : g.descriptions.map RuleDescription.name = g.names
  described : ∀ d ∈ g.descriptions, ∃ r, g.resolve d.name = .ok r ∧ d = r.describe
  counted : g.size = g.names.length

theorem lists (g : Registry R Q) : g.Lists := by
  have known (name : String) : name ∈ g.names ↔ ∃ r, g.resolve name = .ok r := by
    simp only [resolve_eq_ok_iff]
    exact List.mem_map
  refine ⟨fun name => contains_iff.trans (known name), known, ?_, ?_, ?_, fun d hd => ?_, ?_⟩
  · rw [List.pairwise_map]
    exact g.sorted.imp bytes_lt
  · exact g.sorted.imp String.ne_of_lt
  · simp [descriptions, Registry.names, Function.comp_def, Rule.describe]
  · obtain ⟨r, hr, rfl⟩ := List.mem_map.1 hd
    exact ⟨r, resolve_eq_ok hr, rfl⟩
  · rw [size, Registry.names, List.length_map]

end Registry

/-- A call that offers a rule to a builder. One answers with the binder of the rule and one with
nothing; the third takes the builder and answers with it, so that another can follow. -/
inductive Call (R Q : Type) : Type 1
  | register {P : Type} (rule : TypedRule P R Q)
  | registerErased (rule : Rule R Q)
  | withRule {P : Type} (rule : TypedRule P R Q)

namespace Call

/-- The rule that is offered. -/
def rule : Call R Q → Rule R Q
  | .register rule => rule.erase
  | .registerErased rule => rule
  | .withRule rule => rule.erase

/-- Whether the call takes the builder. -/
def takes : Call R Q → Bool
  | .withRule _ => true
  | _ => false

/-- Whether the call succeeds, and the builder after it: where one was taken and the call failed,
there is none. -/
def run (g : Registry R Q) : Call R Q → Except RuleError Unit × Option (Registry R Q)
  | .register rule =>
    match g.register rule with
    | .ok (_, h) => (.ok (), some h)
    | .error e => (.error e, some g)
  | .registerErased rule =>
    match g.add rule with
    | .ok h => (.ok (), some h)
    | .error e => (.error e, some g)
  | .withRule rule =>
    match g.withRule rule with
    | .ok h => (.ok (), some h)
    | .error e => (.error e, none)

variable {g h : Registry R Q} {c : Call R Q}

theorem run_of_ok (added : g.add c.rule = .ok h) : c.run g = (.ok (), some h) := by
  cases c <;> simp only [rule] at added <;>
    simp [run, Registry.withRule, Registry.register, added, Except.map]

theorem run_of_error {e : RuleError} (failed : g.add c.rule = .error e) :
    c.run g = (.error e, if c.takes then none else some g) := by
  cases c <;> simp only [rule] at failed <;>
    simp [run, Registry.withRule, Registry.register, failed, Except.map, takes]

/-- A call fails for its rule's own name or because of a rule that is there, and only then. -/
theorem run_cases (g : Registry R Q) (c : Call R Q) :
    isReserved c.rule.name = true ∧
      c.run g = (.error (.reservedName c.rule.name), if c.takes then none else some g) ∨
    isReserved c.rule.name = false ∧ c.rule.name ∈ g.names ∧
      c.run g = (.error (.duplicateRule c.rule.name), if c.takes then none else some g) ∨
    isReserved c.rule.name = false ∧ c.rule.name ∉ g.names ∧
      ∃ h, g.add c.rule = .ok h ∧ c.run g = (.ok (), some h) := by
  rcases g.add_cases c.rule with ⟨reserved, failed⟩ | ⟨permitted, taken, failed⟩ |
    ⟨permitted, free, h, added⟩
  · exact .inl ⟨reserved, run_of_error failed⟩
  · exact .inr (.inl ⟨permitted, taken, run_of_error failed⟩)
  · exact .inr (.inr ⟨permitted, free, h, added, run_of_ok added⟩)

end Call

/-! ## Builders and what was offered to them -/

/-- A builder, or the registry that it became, with each rule that was ever offered to it, those
that were offered to the registry it extends first. -/
structure Builder (R Q : Type) where
  registry : Registry R Q
  offered : List (Rule R Q)

namespace Builder

variable {b b' : Builder R Q} {c : Call R Q}

def empty : Builder R Q := ⟨.empty, []⟩

/-- The first rule that was offered under the name, unless the name is reserved. -/
def first (b : Builder R Q) (name : String) : Option (Rule R Q) :=
  if isReserved name then none else b.offered.find? fun r => r.name == name

/-- The builder after a call, if it is still there. -/
def call (b : Builder R Q) (c : Call R Q) : Option (Builder R Q) :=
  (c.run b.registry).2.map (⟨·, b.offered ++ [c.rule]⟩)

/-- The rules are those that were offered first under their names. -/
def Settled (b : Builder R Q) : Prop := ∀ r, r ∈ b.registry.rules ↔ b.first r.name = some r

theorem settled_empty : (empty : Builder R Q).Settled := by
  intro r
  simp [empty, Registry.empty, first]

theorem name_of_first {name : String} {r : Rule R Q} (h : b.first name = some r) :
    r.name = name := by
  unfold first at h
  split at h
  · cases h
  · simpa using List.find?_some h

/-- A name is taken exactly if a rule was offered under it that could be. -/
theorem Settled.mem_names_iff (h : b.Settled) {name : String} :
    name ∈ b.registry.names ↔ ∃ r, b.first name = some r := by
  unfold Registry.names
  constructor
  · intro known
    obtain ⟨r, inside, rfl⟩ := List.mem_map.1 known
    exact ⟨r, (h r).1 inside⟩
  · rintro ⟨r, isFirst⟩
    obtain rfl := name_of_first isFirst
    exact List.mem_map_of_mem ((h r).2 isFirst)

theorem Settled.resolve_eq (h : b.Settled) (name : String) :
    b.registry.resolve name = (b.first name).elim (.error (.unknownRule name)) .ok := by
  cases isFirst : b.first name with
  | some r =>
    obtain rfl := name_of_first isFirst
    exact Registry.resolve_eq_ok ((h r).2 isFirst)
  | none =>
    refine Registry.resolve_eq_error fun r known same => ?_
    rw [← same, (h r).1 known] at isFirst
    cases isFirst

/-- One more offer is the first of its name if there was none before. -/
theorem first_offer (g : Registry R Q) (o : Rule R Q) (name : String) :
    first ⟨g, b.offered ++ [o]⟩ name =
      (b.first name).or (if isReserved name = false ∧ o.name = name then some o else none) := by
  unfold first
  by_cases reserved : isReserved name = true
  · simp [reserved]
  · by_cases same : o.name = name
    · simp [reserved, same, List.find?_append]
    · simp [reserved, same, List.find?_append]

/-- The rule of a call that is refused is not the first of its name. -/
theorem Settled.first_refused (h : b.Settled) (g : Registry R Q) {o : Rule R Q}
    (refused : isReserved o.name = true ∨ o.name ∈ b.registry.names) (name : String) :
    first ⟨g, b.offered ++ [o]⟩ name = b.first name := by
  rw [first_offer]
  split
  · next here =>
    obtain ⟨permitted, rfl⟩ := here
    rcases refused with reserved | taken
    · rw [permitted] at reserved
      cases reserved
    · obtain ⟨r, isFirst⟩ := h.mem_names_iff.1 taken
      rw [isFirst, Option.some_or]
  · rw [Option.or_none]

theorem Settled.first_taken (h : b.Settled) (g : Registry R Q) {o : Rule R Q}
    (permitted : isReserved o.name = false) (free : o.name ∉ b.registry.names) (r : Rule R Q) :
    first ⟨g, b.offered ++ [o]⟩ r.name = some r ↔ r = o ∨ b.first r.name = some r := by
  rw [first_offer]
  by_cases same : o.name = r.name
  · have none : b.first r.name = none := by
      rw [Option.eq_none_iff_forall_ne_some]
      intro s isFirst
      exact free (same ▸ h.mem_names_iff.2 ⟨s, isFirst⟩)
    simp [none, same, same ▸ permitted, eq_comm]
  · have other : r ≠ o := fun h => same (h ▸ rfl)
    simp [same, other]

/-- Each call leaves the rules of the builder those that were offered first. -/
theorem Settled.call (h : b.Settled) (called : b.call c = some b') : b'.Settled := by
  have refused (no : isReserved c.rule.name = true ∨ c.rule.name ∈ b.registry.names) :
      Settled ⟨b.registry, b.offered ++ [c.rule]⟩ := by
    intro r
    rw [h.first_refused b.registry no]
    exact h r
  unfold Builder.call at called
  rcases c.run_cases b.registry with ⟨reserved, ran⟩ | ⟨_, taken, ran⟩ |
    ⟨permitted, free, g, added, ran⟩
  · rw [ran] at called
    cases takes : c.takes <;> simp [takes] at called
    exact called ▸ refused (.inl reserved)
  · rw [ran] at called
    cases takes : c.takes <;> simp [takes] at called
    exact called ▸ refused (.inr taken)
  · rw [ran] at called
    cases called
    intro r
    rw [h.first_taken g permitted free, ← h r]
    exact (Registry.add_eq_ok added).2 r

/-- Builders that were offered the same rules, under distinct names and in whatever order, have
the same rules. -/
theorem Settled.registry_eq (h : b.Settled) (h' : b'.Settled) (same : b.offered.Perm b'.offered)
    (distinct : (b.offered.map Rule.name).Nodup) : b.registry = b'.registry := by
  have isFirst {b : Builder R Q} (distinct : (b.offered.map Rule.name).Nodup) (r : Rule R Q) :
      b.first r.name = some r ↔ isReserved r.name = false ∧ r ∈ b.offered := by
    unfold first
    split
    · next reserved => simp [reserved]
    · next permitted =>
      rw [and_iff_right (by simpa using permitted)]
      exact ⟨List.mem_of_find?_eq_some, Registry.find?_of_nodup distinct⟩
  refine Registry.eq_of_mem_iff fun r => ?_
  rw [h r, h' r, isFirst distinct, isFirst ((same.map Rule.name).nodup_iff.1 distinct),
    same.mem_iff]

end Builder

/-! ## Sessions -/

/-- The builders that there were, where those that are gone leave their place empty, and the
registries that were built. -/
structure Session (R Q : Type) where
  builders : List (Option (Builder R Q))
  built : List (Builder R Q)

/-- What can happen: a builder begins, without rules or as an extension of a registry that was
built; it gets a call; it becomes a registry; or it is dropped, as it is if an extension fails. -/
inductive Event (R Q : Type) : Type 1
  | start
  | extend (base : Nat)
  | call (builder : Nat) (c : Call R Q)
  | build (builder : Nat)
  | drop (builder : Nat)

namespace Session

variable {s : Session R Q} {b : Builder R Q} {event : Event R Q}

/-- The builder at its place, if it is still there. -/
def at? (s : Session R Q) (i : Nat) : Option (Builder R Q) := s.builders[i]?.join

def step (s : Session R Q) : Event R Q → Session R Q
  | .start => { s with builders := s.builders ++ [some .empty] }
  | .extend base =>
    match s.built[base]? with
    | some b => { s with builders := s.builders ++ [some b] }
    | none => s
  | .call i c =>
    match s.at? i with
    | some b => { s with builders := s.builders.set i (b.call c) }
    | none => s
  | .build i =>
    match s.at? i with
    | some b => ⟨s.builders.set i none, s.built ++ [b]⟩
    | none => s
  | .drop i => { s with builders := s.builders.set i none }

def start : Session R Q := ⟨[], []⟩

def after (s : Session R Q) (events : List (Event R Q)) : Session R Q := events.foldl step s

/-- The session has the builder, or has built it. -/
def Has (s : Session R Q) (b : Builder R Q) : Prop := some b ∈ s.builders ∨ b ∈ s.built

theorem has_of_at? {i : Nat} (h : s.at? i = some b) : s.Has b := by
  refine .inl (List.mem_of_getElem? (i := i) ?_)
  exact Option.join_eq_some_iff.1 h

/-- All that a step can do: nothing, bring a builder with no rules or with those of a registry, put
a builder after a call in its place or leave that empty, or make a registry of a builder. -/
theorem step_cases (s : Session R Q) (event : Event R Q) :
    s.step event = s ∨
    (∃ b, (b = .empty ∨ b ∈ s.built) ∧
      s.step event = { s with builders := s.builders ++ [some b] }) ∨
    (∃ i o, (∀ b', o = some b' → ∃ b c, s.at? i = some b ∧ b.call c = some b') ∧
      s.step event = { s with builders := s.builders.set i o }) ∨
    ∃ i b, s.at? i = some b ∧ s.step event = ⟨s.builders.set i none, s.built ++ [b]⟩ := by
  cases event with
  | start => exact .inr (.inl ⟨.empty, .inl rfl, rfl⟩)
  | extend base =>
    simp only [step]
    split
    · next b found => exact .inr (.inl ⟨b, .inr (List.mem_of_getElem? found), rfl⟩)
    · exact .inl rfl
  | call i c =>
    simp only [step]
    split
    · next b found => exact .inr (.inr (.inl ⟨i, b.call c, fun b' h => ⟨b, c, found, h⟩, rfl⟩))
    · exact .inl rfl
  | build i =>
    simp only [step]
    split
    · next b found => exact .inr (.inr (.inr ⟨i, b, found, rfl⟩))
    · exact .inl rfl
  | drop i => exact .inr (.inr (.inl ⟨i, none, nofun, rfl⟩))

/-- A step leaves each builder with the rules that were offered first. -/
theorem settled_step (settled : ∀ b, s.Has b → b.Settled) (event : Event R Q) :
    ∀ b, (s.step event).Has b → b.Settled := by
  intro b has
  rcases s.step_cases event with same | ⟨b₀, origin, same⟩ | ⟨i, o, origin, same⟩ |
    ⟨i, b₀, found, same⟩
  · rw [same] at has
    exact settled b has
  · rw [same] at has
    rcases has with has | has
    · rcases List.mem_append.1 has with has | has
      · exact settled b (.inl has)
      · obtain rfl : b = b₀ := by simpa using has
        rcases origin with rfl | built
        · exact Builder.settled_empty
        · exact settled b (.inr built)
    · exact settled b (.inr has)
  · rw [same] at has
    rcases has with has | has
    · rcases List.mem_or_eq_of_mem_set has with has | rfl
      · exact settled b (.inl has)
      · obtain ⟨b₀, c, found, called⟩ := origin b rfl
        exact (settled b₀ (has_of_at? found)).call called
    · exact settled b (.inr has)
  · rw [same] at has
    rcases has with has | has
    · rcases List.mem_or_eq_of_mem_set has with has | has
      · exact settled b (.inl has)
      · cases has
    · rcases List.mem_append.1 has with has | has
      · exact settled b (.inr has)
      · obtain rfl : b = b₀ := by simpa using has
        exact settled b (has_of_at? found)

/-- Whatever happens, the rules of each builder are those that were offered first. -/
theorem settled_after (events : List (Event R Q)) (settled : ∀ b, s.Has b → b.Settled) :
    ∀ b, (s.after events).Has b → b.Settled := by
  induction events generalizing s with
  | nil => exact settled
  | cons event rest ih => exact ih (settled_step settled event)

theorem settled_of_start {events : List (Event R Q)} (h : (start.after events).Has b) :
    b.Settled := by
  refine settled_after events (fun b has => ?_) b h
  rcases has with has | has <;> cases has

/-- What was built stays as it was. -/
theorem built_step (s : Session R Q) (event : Event R Q) : s.built <+: (s.step event).built := by
  rcases s.step_cases event with same | ⟨_, _, same⟩ | ⟨_, _, _, same⟩ | ⟨_, _, _, same⟩
  · rw [same]
  · rw [same]
  · rw [same]
  · rw [same]
    exact List.prefix_append _ _

theorem built_after (s : Session R Q) (events : List (Event R Q)) :
    s.built <+: (s.after events).built := by
  induction events generalizing s with
  | nil => exact List.prefix_refl _
  | cons event rest ih => exact (built_step s event).trans (ih (s.step event))

/-- A builder that is gone does not come back. -/
theorem gone_step {i : Nat} (gone : s.builders[i]? = some none) (event : Event R Q) :
    (s.step event).builders[i]? = some none := by
  have inside : i < s.builders.length := (List.getElem?_eq_some_iff.1 gone).1
  have still {j : Nat} {o : Option (Builder R Q)} (h : i = j → o = none) :
      (s.builders.set j o)[i]? = some none := by
    by_cases here : i = j
    · subst here
      rw [List.getElem?_set_self inside, h rfl]
    · rw [List.getElem?_set_ne (Ne.symm here), gone]
  have empty : s.at? i = none := by rw [at?, gone, Option.join_some]
  rcases s.step_cases event with same | ⟨b, _, same⟩ | ⟨j, o, origin, same⟩ | ⟨j, b, _, same⟩
  · rwa [same]
  · rw [same, List.getElem?_append_left inside, gone]
  · rw [same]
    refine still fun here => Option.eq_none_iff_forall_ne_some.2 fun b' there => ?_
    obtain ⟨b, c, found, _⟩ := origin b' there
    rw [← here, empty] at found
    cases found
  · rw [same]
    exact still fun _ => rfl

theorem gone_after {i : Nat} (gone : s.builders[i]? = some none) (events : List (Event R Q)) :
    (s.after events).builders[i]? = some none := by
  induction events generalizing s with
  | nil => exact gone
  | cons event rest ih => exact ih (gone_step gone event)

theorem after_append (s : Session R Q) (events more : List (Event R Q)) :
    s.after (events ++ more) = (s.after events).after more := List.foldl_append

/-! ## Extensions -/

/-- An extension of a registry by each of the rules, with a new builder at its place. -/
def extension (s : Session R Q) (base : Nat) (rules : List (Rule R Q)) : List (Event R Q) :=
  .extend base :: rules.map (.call s.builders.length <| .registerErased ·) ++
    [.build s.builders.length]

theorem at?_set {i : Nat} (h : s.at? i = some b) (b' : Builder R Q) (built : List (Builder R Q)) :
    at? ⟨s.builders.set i (some b'), built⟩ i = some b' := by
  have found : s.builders[i]? = some (some b) := Option.join_eq_some_iff.1 h
  rw [at?, List.getElem?_set_self (List.getElem?_eq_some_iff.1 found).1, Option.join_some]

/-- Rules that can all be added are added to the builder at its place. -/
theorem after_calls {i : Nat} {rules : List (Rule R Q)} {g : Registry R Q} (h : s.at? i = some b)
    (extended : b.registry.extend rules = .ok g) :
    (s.after (rules.map (.call i <| .registerErased ·))).at? i = some ⟨g, b.offered ++ rules⟩ ∧
      (s.after (rules.map (.call i <| .registerErased ·))).built = s.built := by
  induction rules generalizing s b with
  | nil =>
    cases extended
    rw [List.append_nil]
    exact ⟨h, rfl⟩
  | cons rule rest ih =>
    rw [Registry.extend] at extended
    split at extended
    · cases extended
    · next g' added =>
      have called : b.call (.registerErased rule) = some ⟨g', b.offered ++ [rule]⟩ := by
        have ran := Call.run_of_ok (c := .registerErased rule) added
        rw [Builder.call, ran]
        rfl
      have stepped : s.step (.call i (.registerErased rule))
          = ⟨s.builders.set i (some ⟨g', b.offered ++ [rule]⟩), s.built⟩ := by
        simp only [step, h, called]
      obtain ⟨there, built⟩ := ih (at?_set h ⟨g', b.offered ++ [rule]⟩ s.built) extended
      rw [List.append_assoc, List.singleton_append] at there
      rw [List.map_cons, after, List.foldl_cons, stepped]
      exact ⟨there, built⟩

/-- An extension by rules that can all be added builds the registry with these. -/
theorem built_extension {base : Nat} {rules : List (Rule R Q)} {g : Registry R Q}
    (found : s.built[base]? = some b) (extended : b.registry.extend rules = .ok g) :
    (s.after (s.extension base rules)).built = s.built ++ [⟨g, b.offered ++ rules⟩] := by
  have begun : s.step (.extend base) = ⟨s.builders ++ [some b], s.built⟩ := by
    simp only [step, found]
  have there : at? ⟨s.builders ++ [some b], s.built⟩ s.builders.length = some b := by
    rw [at?, List.getElem?_concat_length, Option.join_some]
  obtain ⟨filled, built⟩ := after_calls there extended
  rw [extension, List.cons_append, after, List.foldl_cons, begun, ← after, after_append]
  simp only [after, List.foldl_cons, List.foldl_nil] at filled built ⊢
  simp only [step, filled, built]

end Session

/-! ## The law of registration -/

open Session

theorem isReserved_iff {name : String} : isReserved name = true ↔ name = "all" ∨ name = "any" := by
  simp [isReserved]

/-- Whatever happens to builders, in each of them and in each registry a name stands for the first
rule that was ever offered under it, the two reserved names for none, and no other name is shown.
A call is refused exactly for a reserved name and for one that is taken, and then leaves the rules
as they were, unless it took the builder. Registries that were built stay as they are, also when
they are extended, and an extension that fails builds none. So the same rules under distinct names
make registries that interpret all criteria alike, in whatever order they were offered. -/
theorem a_name_stands_for_the_first_rule_offered (events : List (Event R Q)) :
    (∀ b, (start.after events).Has b → b.registry.Lists ∧
      ∀ name, b.registry.resolve name = (b.first name).elim (.error (.unknownRule name)) .ok) ∧
    (∀ (b : Builder R Q) (c : Call R Q), (start.after events).Has b →
      ((c.run b.registry).1 = .error (.reservedName c.rule.name) ↔
        c.rule.name = "all" ∨ c.rule.name = "any") ∧
      ((c.run b.registry).1 = .error (.duplicateRule c.rule.name) ↔
        b.registry.contains c.rule.name = true) ∧
      ∀ e, (c.run b.registry).1 = .error e →
        (e = .reservedName c.rule.name ∨ e = .duplicateRule c.rule.name) ∧
        (c.run b.registry).2 = if c.takes then none else some b.registry) ∧
    (∀ more, (start.after events).built <+: (start.after (events ++ more)).built) ∧
    (∀ base b rules g, (start.after events).built[base]? = some b →
      b.registry.extend rules = .ok g →
      (start.after (events ++ (start.after events).extension base rules)).built
        = (start.after events).built ++ [⟨g, b.offered ++ rules⟩]) ∧
    (∀ i b, (start.after events).at? i = some b →
      (start.after (events ++ [.drop i])).built = (start.after events).built ∧
      ∀ more, (start.after (events ++ .drop i :: more)).at? i = none) ∧
    ∀ events' b b', b ∈ (start.after events).built → b' ∈ (start.after events').built →
      b.offered.Perm b'.offered → (b.offered.map Rule.name).Nodup →
      (∀ c r, b.registry.apply c r = b'.registry.apply c r) ∧
      (∀ c, b.registry.toQuery c = b'.registry.toQuery c) ∧
      (∀ c, b.registry.validate c = b'.registry.validate c) ∧
      b.registry.descriptions = b'.registry.descriptions := by
  refine ⟨fun b has => ⟨b.registry.lists, (settled_of_start has).resolve_eq⟩, fun b c _ => ?_,
    fun more => ?_, fun base b rules g found extended => ?_, fun i b found => ?_,
    fun events' b b' has has' same distinct => ?_⟩
  · rw [Registry.contains_iff, ← isReserved_iff]
    rcases c.run_cases b.registry with ⟨reserved, ran⟩ | ⟨permitted, taken, ran⟩ |
      ⟨permitted, free, g, _, ran⟩
    · simp [ran, reserved, Registry.not_mem_names_of_reserved reserved]
    · simp [ran, permitted, taken]
    · simp [ran, permitted, free]
  · rw [after_append]
    exact built_after _ more
  · rw [after_append]
    exact built_extension found extended
  · have inside : (start.after events).builders[i]? = some (some b) :=
      Option.join_eq_some_iff.1 found
    have gone : ((start.after events).step (.drop i)).builders[i]? = some none :=
      List.getElem?_set_self (List.getElem?_eq_some_iff.1 inside).1
    refine ⟨by rw [after_append]; rfl, fun more => ?_⟩
    rw [after_append, at?, after, List.foldl_cons, ← after, gone_after gone more, Option.join_some]
  · have settled := settled_of_start (.inr has)
    rw [settled.registry_eq (settled_of_start (.inr has')) same distinct]
    exact ⟨fun _ _ => rfl, fun _ => rfl, fun _ => rfl, rfl⟩

namespace Catalog

/-- A rule about kinds under the name of the rule about owners. -/
def impostor : Rule Entity Filter := { isEntityKind.erase with name := isOwner.name }

/-- The impostor is refused at first and in an extension, and the name stands for the rule about
owners in both registries. Without it the rules make one registry in either order. -/
theorem an_impostor_does_not_get_the_name :
    (∃ base extended, (start.after [.start, .call 0 (.register isOwner),
        .call 0 (.registerErased impostor), .build 0, .extend 0, .call 1 (.registerErased impostor),
        .call 1 (.withRule isEntityKind), .build 1]).built = [base, extended] ∧
      base.registry.names = ["IS_OWNER"] ∧
      extended.registry.names = ["IS_ENTITY_KIND", "IS_OWNER"] ∧
      extended.registry.resolve "IS_OWNER" = .ok isOwner.erase) ∧
    ∃ one other, (start.after [.start, .call 0 (.register isOwner),
        .call 0 (.withRule isEntityKind), .build 0]).built = [one] ∧
      (start.after [.start, .call 0 (.withRule isEntityKind), .call 0 (.register isOwner),
        .build 0]).built = [other] ∧
      ∀ c e, one.registry.apply c e = other.registry.apply c e := by
  refine ⟨⟨_, _, rfl, rfl, rfl, ?_⟩, _, _, rfl, rfl, ?_⟩
  · have resolves := (a_name_stands_for_the_first_rule_offered [.start,
      .call 0 (.register isOwner), .call 0 (.registerErased impostor), .build 0, .extend 0,
      .call 1 (.registerErased impostor), .call 1 (.withRule isEntityKind), .build 1]).1
    have built := (resolves _ (.inr (List.mem_cons_of_mem _ (List.mem_singleton_self _)))).2
    exact (built "IS_OWNER").trans rfl
  · obtain ⟨_, _, _, _, _, alike⟩ := a_name_stands_for_the_first_rule_offered
      [.start, .call 0 (.register isOwner), .call 0 (.withRule isEntityKind), .build 0]
    exact (alike [.start, .call 0 (.withRule isEntityKind), .call 0 (.register isOwner), .build 0]
      _ _ (List.mem_singleton_self _) (List.mem_singleton_self _) (.swap _ _ _) (by decide)).1

end Catalog

end Permit
