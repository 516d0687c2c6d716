-- The text of a query and the text form of its tree have the same tokens, each spelled its own
-- way, except that a query drops the parentheses of an `any` of several that stands in groups of
-- one inside an `all`. Where there is none, the query means what the tree means.
import Permit.Catalog
import Permit.Proofs.Interpreters
import Permit.Proofs.Json.Drafts
import Permit.Proofs.Precedence
import Permit.Proofs.Rereading
import Permit.Proofs.SetAside

namespace Permit.Criteria

variable {α : Type}

/-! ## Spelled tokens -/

/-- How a text spells its tokens. Parentheses are the same in each. -/
structure Spelling (α : Type) where
  atom : α → List Char
  yes : List Char
  no : List Char
  and : List Char
  or : List Char

def Spelling.token (spelling : Spelling α) : Token α → List Char
  | .atom a => spelling.atom a
  | .yes => spelling.yes
  | .no => spelling.no
  | .and => spelling.and
  | .or => spelling.or
  | .opening => ['(']
  | .closing => [')']

/-- The text of tokens. -/
def Spelling.text (spelling : Spelling α) (ts : List (Token α)) : List Char :=
  ts.flatMap spelling.token

/-- The spelling of the text form. -/
def Spelling.form (leaf : α → List Char) : Spelling α :=
  ⟨leaf, "all()".toList, "any()".toList, " and ".toList, " or ".toList⟩

/-- The spelling of queries. -/
def Spelling.query : Spelling Catalog.Filter :=
  ⟨fun f => f.text.toList, "TRUE".toList, "FALSE".toList, " AND ".toList, " OR ".toList⟩

section Text

variable (spelling : Spelling α)

theorem Spelling.text_append (ts us : List (Token α)) :
    spelling.text (ts ++ us) = spelling.text ts ++ spelling.text us :=
  List.flatMap_append

theorem Spelling.text_cons (t : Token α) (ts : List (Token α)) :
    spelling.text (t :: ts) = spelling.token t ++ spelling.text ts :=
  List.flatMap_cons

end Text

/-! ## The text form -/

theorem writeRest_eq (leaf : α → List Char) {inAll : Bool} (separator : String) (t : Token α)
    (same : (Spelling.form leaf).token t = separator.toList) {cs : List (Criteria α)}
    (each : ∀ c ∈ cs, write leaf inAll c = (Spelling.form leaf).text (tokens true inAll c)) :
    writeRest leaf separator inAll cs =
      (Spelling.form leaf).text (moreTokens true inAll t cs) := by
  induction cs with
  | nil => rfl
  | cons c rest ih =>
    rw [writeRest, moreTokens, Spelling.text_cons, Spelling.text_append, same,
      each c List.mem_cons_self, ih fun d hd => each d (List.mem_cons_of_mem _ hd),
      List.append_assoc]

/-- The text form spells the tokens of the tree with all parentheses. -/
theorem write_eq (leaf : α → List Char) (c : Criteria α) (inAll : Bool) :
    write leaf inAll c = (Spelling.form leaf).text (tokens true inAll c) := by
  induction c using cases_of_text generalizing inAll with
  | leaf a => simp [write, tokens_leaf, Spelling.text, Spelling.token, Spelling.form]
  | allNil => simp [write, tokens_all_nil, Spelling.text, Spelling.token, Spelling.form]
  | anyNil => simp [write, tokens_any_nil, Spelling.text, Spelling.token, Spelling.form]
  | all c rest ih =>
    have more := writeRest_eq leaf " and " .and rfl
      fun d hd => ih d (List.mem_cons_of_mem c hd) true
    rw [write, tokens_all, Spelling.text_append, ih c List.mem_cons_self, more]
  | anyOne c ih => rw [write, tokens_any_one, Bool.true_and, ih]
  | any c d rest ih =>
    have more := writeRest_eq leaf " or " .or rfl
      fun e he => ih e (List.mem_cons_of_mem c he) false
    rw [write_any, tokens_any, ih c List.mem_cons_self, more, ← Spelling.text_append]
    cases inAll with
    | false => rfl
    | true => simp [Spelling.token, Spelling.text]

/-! ## Queries -/

theorem renderFactors_eq {cs : List (Criteria Catalog.Filter)}
    (each : ∀ c ∈ cs, (Catalog.renderFactor c).toList = Spelling.query.text (tokens false true c)) :
    (Catalog.renderFactors cs).toList = Spelling.query.text (moreTokens false true .and cs) := by
  induction cs with
  | nil => rfl
  | cons c rest ih =>
    rw [Catalog.renderFactors, String.toList_append, String.toList_append, moreTokens,
      Spelling.text_cons, Spelling.text_append, each c List.mem_cons_self,
      ih fun d hd => each d (List.mem_cons_of_mem _ hd), List.append_assoc]
    rfl

theorem renderTerms_eq {cs : List (Criteria Catalog.Filter)}
    (each : ∀ c ∈ cs, (Catalog.render c).toList = Spelling.query.text (tokens false false c)) :
    (Catalog.renderTerms cs).toList = Spelling.query.text (moreTokens false false .or cs) := by
  induction cs with
  | nil => rfl
  | cons c rest ih =>
    rw [Catalog.renderTerms, String.toList_append, String.toList_append, moreTokens,
      Spelling.text_cons, Spelling.text_append, each c List.mem_cons_self,
      ih fun d hd => each d (List.mem_cons_of_mem _ hd), List.append_assoc]
    rfl

/-- A query spells the tokens of the tree without those parentheses. -/
theorem render_eq (c : Criteria Catalog.Filter) :
    (Catalog.render c).toList = Spelling.query.text (tokens false false c) ∧
      (Catalog.renderFactor c).toList = Spelling.query.text (tokens false true c) := by
  induction c using cases_of_text with
  | leaf f =>
    simp [Catalog.render, Catalog.renderFactor, tokens_leaf, Spelling.text, Spelling.token,
      Spelling.query]
  | allNil =>
    simp [Catalog.render, Catalog.renderFactor, tokens_all_nil, Spelling.text, Spelling.token,
      Spelling.query]
  | anyNil =>
    simp [Catalog.render, Catalog.renderFactor, tokens_any_nil, Spelling.text, Spelling.token,
      Spelling.query]
  | all c rest ih =>
    have more := renderFactors_eq fun d hd => (ih d (List.mem_cons_of_mem c hd)).2
    rw [Catalog.render, Catalog.renderFactor, tokens_all, tokens_all, String.toList_append,
      Spelling.text_append, (ih c List.mem_cons_self).2, more]
    exact ⟨rfl, rfl⟩
  | anyOne c ih =>
    rw [Catalog.render, Catalog.renderFactor, Catalog.renderTerms, tokens_any_one, tokens_any_one,
      String.append_empty, ih.1]
    exact ⟨rfl, rfl⟩
  | any c d rest ih =>
    have more := renderTerms_eq fun e he => (ih e (List.mem_cons_of_mem c he)).1
    have inner : (Catalog.render c ++ Catalog.renderTerms (d :: rest)).toList =
        Spelling.query.text (tokens false false c ++ moreTokens false false .or (d :: rest)) := by
      rw [String.toList_append, Spelling.text_append, (ih c List.mem_cons_self).1, more]
    constructor
    · rw [Catalog.render, tokens_any]
      exact inner
    · rw [Catalog.renderFactor, tokens_any, String.toList_append, String.toList_append, inner]
      · simp [Spelling.token, Spelling.text, Spelling.query]
      · intro h
        cases h

/-! ## Trees that were read -/

section Read

open Expression Expression.Grammar

/-- Guarded also where it stands inside an `all`. -/
structure GuardedInAll (c : Criteria α) : Prop where
  guarded : Guarded c
  alone : ∀ d, c = .any [d] → ¬ Joined d

theorem GuardedInAll.all {cs : List (Criteria α)} (each : ∀ c ∈ cs, GuardedInAll c) :
    GuardedInAll (.all cs) where
  guarded := .all (fun c hc => (each c hc).guarded) fun c hc => (each _ hc).alone c rfl
  alone _ eq := nomatch eq

theorem guardedInAll_primary {inner : Form (Criteria Condition)}
    (groups : ∀ s c r, inner s c r → GuardedInAll c) :
    ∀ s c r, Primary inner s c r → GuardedInAll c := by
  intro s c r h
  cases h with
  | group _ inside _ => exact groups _ _ _ inside
  | empty _ isEmpty =>
    cases isEmpty with
    | all _ _ => exact .all (by simp)
    | any _ _ => exact ⟨.any (by simp), nofun⟩
  | call _ _ => exact ⟨.leaf _, nofun⟩

theorem guardedInAll_disjunction {inner : Form (Criteria Condition)}
    (groups : ∀ s c r, inner s c r → GuardedInAll c) :
    ∀ s c r, Disjunction inner s c r → GuardedInAll c := by
  have conjunction : ∀ s c r, Chain (Operator "and" "AND") (Primary inner) .all s c r →
      GuardedInAll c := by
    intro s c r h
    cases h with
    | one isPart => exact guardedInAll_primary groups _ _ _ isPart
    | several isPart more => exact .all (more.forall_mem (guardedInAll_primary groups) isPart)
  intro s c r h
  cases h with
  | one isPart => exact conjunction _ _ _ isPart
  | several isPart more =>
    have each := more.forall_mem conjunction isPart
    exact ⟨.any fun d hd => (each d hd).guarded, nofun⟩

/-- A text spells no group of one. -/
theorem guardedInAll_expr (n : Nat) : ∀ s c r, Expr n s c r → GuardedInAll c := by
  induction n with
  | zero => exact guardedInAll_disjunction nofun
  | succ n ih => exact guardedInAll_disjunction ih

theorem guarded_of_ofText {text : String} {c : Criteria Condition}
    (read : Criteria.ofText text = .ok c) : Guarded c := by
  obtain ⟨r, spelt, -⟩ := spells_of_ofText read
  exact (guardedInAll_expr _ _ _ _ spelt).guarded

/-- In a document a group of one in `any` holds an `all`. -/
theorem guardedInAll_of_node? {leaf? : Json.Value → Option α} (c : Criteria α) : ∀ v,
    (node? leaf? v = some c → GuardedInAll c) ∧
    (conjunction? leaf? v = some c → Guarded c ∧ ¬ Joined c) := by
  induction c with
  | leaf a =>
    refine fun v => ⟨fun _ => ⟨.leaf a, nofun⟩, fun h => ?_⟩
    obtain ⟨_, _, _, _, other⟩ := conjunction?_eq_some_iff.1 h
    cases other
  | all cs ih =>
    refine fun v => ⟨fun h => ?_, fun h => ?_⟩
    · rcases node?_eq_some_iff.1 h with h | ⟨_, a, _, other⟩
      · exact absurd h (nested?_ne_all v cs)
      · cases other
    · obtain ⟨vs, ds, _, read, same⟩ := conjunction?_eq_some_iff.1 h
      cases same
      refine ⟨(GuardedInAll.all fun d hd => ?_).guarded, nofun⟩
      obtain ⟨w, _, node⟩ := exists_of_mem_left (nodes?_eq_some_iff.1 read).flip hd
      exact (ih d hd w).1 node
  | any cs ih =>
    refine fun v => ⟨fun h => ?_, fun h => ?_⟩
    · rcases node?_eq_some_iff.1 h with h | ⟨_, a, _, other⟩
      · obtain ⟨vs, ds, _, read, same⟩ := nested?_eq_some_iff.1 h
        cases same
        have each : ∀ d ∈ cs, Guarded d ∧ ¬ Joined d := by
          intro d hd
          obtain ⟨w, _, conjunction⟩ :=
            exists_of_mem_left (conjunctions?_eq_some_iff.1 read).flip hd
          exact (ih d hd w).2 conjunction
        refine ⟨.any fun d hd => (each d hd).1, ?_⟩
        rintro d ⟨⟩
        exact (each d List.mem_cons_self).2
      · cases other
    · obtain ⟨_, _, _, _, other⟩ := conjunction?_eq_some_iff.1 h
      cases other

theorem guarded_of_decode {leaf : Json.Decoder α} {origin : Json.Origin} {draft : Json.Draft}
    {c : Criteria α} (decoded : (decoder leaf).decode origin draft = .ok c) : Guarded c := by
  obtain ⟨_, cs, -, rfl, conjunctions⟩ := Json.Record.one_list_inside decoded
  refine .any fun d hd => ?_
  obtain ⟨x, -, conjunction⟩ := conjunctions d hd
  obtain ⟨_, ds, -, rfl, nodes⟩ := Json.Record.one_list_inside conjunction
  refine (GuardedInAll.all fun e he => ?_).guarded
  obtain ⟨y, -, node⟩ := nodes e he
  simp only [nodeDecoder] at node
  split at node
  · cases node
  · next v _ =>
    split at node
    · next found =>
      cases node
      exact (guardedInAll_of_node? _ v).1 found
    · cases node

end Read

section Map

variable {β : Type} {f : α → β}

theorem joined_map_iff {c : Criteria α} : Joined (c.map f) ↔ Joined c := by
  induction c using cases_of_text with
  | leaf a =>
    rw [map_leaf]
    exact ⟨nofun, nofun⟩
  | allNil =>
    rw [map_all]
    exact ⟨nofun, nofun⟩
  | anyNil =>
    rw [map_any]
    exact ⟨nofun, nofun⟩
  | all c rest _ =>
    rw [map_all]
    exact ⟨nofun, nofun⟩
  | anyOne c ih =>
    rw [map_any]
    constructor
    · rintro (_ | inner)
      exact .one (ih.1 inner)
    · rintro (_ | inner)
      exact .one (ih.2 inner)
  | any c d rest _ =>
    rw [map_any]
    exact ⟨fun _ => .several c d rest, fun _ => .several _ _ _⟩

theorem map_eq_any_one_iff {c : Criteria α} {d : Criteria β} :
    c.map f = .any [d] ↔ ∃ e, c = .any [e] ∧ e.map f = d := by
  constructor
  · intro eq
    cases c with
    | leaf a =>
      rw [map_leaf] at eq
      cases eq
    | all cs =>
      rw [map_all] at eq
      cases eq
    | any cs =>
      rw [map_any, any.injEq, List.map_eq_singleton_iff] at eq
      obtain ⟨e, rfl, rfl⟩ := eq
      exact ⟨e, rfl, rfl⟩
  · rintro ⟨e, rfl, rfl⟩
    rw [map_any, List.map_singleton]

/-- Only the shape of a tree counts. -/
theorem guarded_map_iff (c : Criteria α) : Guarded (c.map f) ↔ Guarded c := by
  induction c with
  | leaf a =>
    rw [map_leaf]
    exact ⟨fun _ => .leaf _, fun _ => .leaf _⟩
  | all cs ih =>
    rw [map_all, guarded_all_iff, guarded_all_iff, List.forall_mem_map]
    refine and_congr (forall₂_congr ih) ⟨fun apart c hc joined => ?_, fun apart d hd joined => ?_⟩
    · exact apart _ (List.mem_map.2 ⟨_, hc, map_eq_any_one_iff.2 ⟨c, rfl, rfl⟩⟩)
        (joined_map_iff.2 joined)
    · obtain ⟨c, hc, eq⟩ := List.mem_map.1 hd
      obtain ⟨e, rfl, rfl⟩ := map_eq_any_one_iff.1 eq
      exact apart e hc (joined_map_iff.1 joined)
  | any cs ih =>
    rw [map_any, guarded_any_iff, guarded_any_iff, List.forall_mem_map]
    exact forall₂_congr ih

end Map

/-! ## What a query means -/

open Catalog (Entity Filter)

/-- What is lowered has the shape of the tree that it came from. -/
theorem guarded_of_toQuery {g : Registry Entity Filter} {t : Criteria Condition}
    {q : Criteria Filter} (lowered : g.toQuery t = .ok q) (guarded : Guarded t) : Guarded q := by
  obtain ⟨pairs, interprets, rfl⟩ := Registry.interprets_of_toQuery lowered
  rw [← interprets.conditions, guarded_map_iff] at guarded
  exact (guarded_map_iff pairs).2 guarded

/-- A query and the text form of its tree spell the tokens of the tree. Those of the text form are
read as the truth of the tree, `and` binding tighter than `or`. Those of the query are the same
exactly if no `any` of several stands inside an `all` in groups of one only, and then they are read
as the truth of the tree too; so it is with all that is lowered from a text or a document, and with
every document of filters. -/
theorem a_guarded_query_means_what_its_tree_means (c : Criteria Filter) (value : Filter → Bool) :
    (Catalog.render c).toList = Spelling.query.text (tokens false false c) ∧
    (toString c).toList =
      (Spelling.form fun f : Filter => (toString f).toList).text (tokens true false c) ∧
    (∀ b, Reads value .sum (tokens true false c) b ↔ c.evaluate value = b) ∧
    (tokens false false c = tokens true false c ↔ Guarded c) ∧
    (Guarded c → ∀ b, Reads value .sum (tokens false false c) b ↔ c.evaluate value = b) ∧
    (∀ (g : Registry Entity Filter) (t : Criteria Condition), g.toQuery t = .ok c →
      (∃ text, Criteria.ofText text = .ok t) ∨
        (∃ origin draft, (decoder Condition.decoder).decode origin draft = .ok t) → Guarded c) ∧
    ∀ origin draft, (decoder Filter.decoder).decode origin draft = .ok c → Guarded c := by
  have form : ∀ b, Reads value .sum (tokens true false c) b ↔ c.evaluate value = b := by
    intro b
    rw [evaluate_eq_truth]
    have reads := (reads_tokens value c).2
    refine ⟨fun h => reads.unique h, ?_⟩
    rintro rfl
    exact reads
  refine ⟨(render_eq c).1, ?_, form, tokens_eq_iff c, fun guarded => ?_, ?_,
    fun _ _ decoded => guarded_of_decode decoded⟩
  · rw [← write_eq]
    exact String.toList_ofList
  · rw [(tokens_eq_iff c).2 guarded]
    exact form
  · rintro g t lowered (⟨text, read⟩ | ⟨origin, draft, decoded⟩)
    · exact guarded_of_toQuery lowered (guarded_of_ofText read)
    · exact guarded_of_toQuery lowered (guarded_of_decode decoded)

/-- Inside groups of one an `any` of two loses its parentheses: `a OR b AND c` is read as true where
only `a` holds, and the tree is not. -/
theorem a_group_of_one_drops_the_parentheses :
    let c : Criteria Filter :=
      .all [.any [.any [.leaf (.exists "a"), .leaf (.exists "b")]], .leaf (.exists "c")]
    let value : Filter → Bool := fun f => f.text = "a EXISTS"
    Catalog.render c = "a EXISTS OR b EXISTS AND c EXISTS" ∧
      Reads value .sum (tokens false false c) true ∧ c.evaluate value = false := by
  intro c value
  refine ⟨by decide +kernel, ?_, ?_⟩
  · have product : Reads value .product [.atom (.exists "b"), .and, .atom (.exists "c")]
        (value (.exists "b") && value (.exists "c")) :=
      .and (.atom _) (.factor (.atom _))
    have sum := Reads.or (.factor (.atom (Filter.exists "a"))) (.product product)
    have onlyA : (value (.exists "a") || value (.exists "b") && value (.exists "c")) = true := by
      decide
    rw [onlyA] at sum
    simpa [c, tokens_all, tokens_any_one, tokens_any, tokens_leaf, moreTokens] using sum
  · rw [evaluate_eq_truth]
    decide +kernel

end Permit.Criteria
