-- How deep the trees of foreign input nest. No text makes a reader go beyond its limit, so each
-- tree that a text or a document gives is shallow, and some are as deep as they may be.
import Permit.Proofs.Json.Drafts
import Permit.Proofs.Nesting
import Permit.Proofs.Queries

namespace Permit

open Json Text

/-! ## Readers that count upwards -/

namespace Expression

/-- Each `body depth` is the reader of an expression inside `depth` open groups, which looks into
another group only below the limit. Of bodies beyond the limit nothing is said. -/
def CountsGroups (body : Nat → List Char → Parsed (Criteria Condition)) : Prop :=
  ∀ depth ≤ maxNesting, body depth = chain .any "or" "OR" (chain .all "and" "AND" (primary
    (if maxNesting ≤ depth then tooDeep else groupBody (body (depth + 1)))))

/-- A literal of which arrays and objects are read by `compound`. -/
def literalWith (compound : List Char → Parsed Value) (s : List Char) : Parsed Value :=
  Parsed.expecting .literal <|
    ((string s).map Value.str).orElse fun _ =>
    match wordLiteral? s with
    | some r => .ok r
    | none => ((number s).map Value.num).orElse fun _ => compound s

/-- An array or an object inside `depth` others, which is looked into only below the limit. -/
def compoundAt (value : Nat → List Char → Parsed Value) (depth : Nat) : List Char → Parsed Value
  | '[' :: rest =>
    if maxNesting ≤ depth then tooDeep rest else arrayBody (value (depth + 1)) rest
  | '\x7b' :: rest =>
    if maxNesting ≤ depth then tooDeep rest else objectBody (value (depth + 1)) rest
  | s => stop s

/-- Each `value depth` is the reader of a literal inside `depth` arrays and objects. Of readers
beyond the limit nothing is said. -/
def CountsLiterals (value : Nat → List Char → Parsed Value) : Prop :=
  ∀ depth ≤ maxNesting, value depth = literalWith (compoundAt value depth)

/-- A reader that counts its groups upwards is the reader with the budget that is left, whatever
stands for deeper groups: none of them is read. -/
theorem CountsGroups.body_eq {body : Nat → List Char → Parsed (Criteria Condition)}
    (counts : CountsGroups body) {n : Nat} (h : n ≤ maxNesting) :
    body (maxNesting - n) = orChain n := by
  induction n with
  | zero => rw [counts _ (Nat.sub_le _ _), Nat.sub_zero, if_pos (Nat.le_refl _), orChain]
  | succ n ih =>
    have below : ¬ maxNesting ≤ maxNesting - (n + 1) := by omega
    have next : maxNesting - (n + 1) + 1 = maxNesting - n := by omega
    rw [counts _ (Nat.sub_le _ _), if_neg below, next, ih (by omega), orChain]

/-- The arrays and objects of a literal are read with the budget that is left after them. -/
theorem literal_eq {n depth : Nat} {value : Nat → List Char → Parsed Value}
    (limit : maxNesting ≤ depth ↔ n = 0) (next : ∀ m, n = m + 1 → value (depth + 1) = literal m) :
    literal n = literalWith (compoundAt value depth) := by
  funext s
  unfold literal literalWith
  congr 2
  funext _
  congr 1
  funext _
  congr 1
  funext _
  unfold compoundAt
  cases n with
  | zero =>
    simp only [if_pos (limit.2 rfl)]
    split <;> simp_all
  | succ n =>
    have below : ¬ maxNesting ≤ depth := fun h => absurd (limit.1 h) (Nat.succ_ne_zero n)
    simp only [if_neg below, next n rfl]
    split <;> simp_all

/-- So is a reader that counts its arrays and objects upwards. -/
theorem CountsLiterals.value_eq {value : Nat → List Char → Parsed Value}
    (counts : CountsLiterals value) {n : Nat} (h : n ≤ maxNesting) :
    value (maxNesting - n) = literal n := by
  induction n with
  | zero =>
    rw [counts _ (Nat.sub_le _ _), Nat.sub_zero]
    exact (literal_eq (by simp) fun m h => by cases h).symm
  | succ n ih =>
    have next : maxNesting - (n + 1) + 1 = maxNesting - n := by omega
    rw [counts _ (Nat.sub_le _ _)]
    refine (literal_eq (by omega) fun m same => ?_).symm
    cases same
    rw [next, ih (by omega)]

/-- Readers that count upwards go on beyond the limit with whatever one likes. -/
theorem exists_countsGroups (beyond : Nat → List Char → Parsed (Criteria Condition)) :
    ∃ body, CountsGroups body ∧ ∀ depth, maxNesting < depth → body depth = beyond depth := by
  refine ⟨fun depth => if depth ≤ maxNesting then orChain (maxNesting - depth) else beyond depth,
    fun depth within => ?_, fun depth above => if_neg (by omega)⟩
  dsimp only
  rw [if_pos within]
  by_cases limit : maxNesting ≤ depth
  · have spent : maxNesting - depth = 0 := by omega
    rw [if_pos limit, spent, orChain]
  · have left : maxNesting - depth = maxNesting - (depth + 1) + 1 := by omega
    rw [if_neg limit, if_pos (by omega), left, orChain]

theorem exists_countsLiterals (beyond : Nat → List Char → Parsed Value) :
    ∃ value, CountsLiterals value ∧ ∀ depth, maxNesting < depth → value depth = beyond depth := by
  refine ⟨fun depth => if depth ≤ maxNesting then literal (maxNesting - depth) else beyond depth,
    fun depth within => ?_, fun depth above => if_neg (by omega)⟩
  dsimp only
  rw [if_pos within]
  refine literal_eq (by omega) fun m left => ?_
  rw [if_pos (by omega)]
  congr 1
  omega

end Expression

/-! ## Trees of texts -/

namespace Criteria

section Trees

variable {α : Type}

theorem depthOf_le {cs : List (Criteria α)} {n : Nat} : depthOf cs ≤ n ↔ ∀ c ∈ cs, c.depth ≤ n := by
  induction cs with
  | nil => simp [depthOf]
  | cons c rest ih => rw [depthOf, Nat.max_le, ih, List.forall_mem_cons]

end Trees

open Expression Expression.Grammar

/-- Each tree that the form gives has at most `n` groups inside one another. -/
def DepthWithin (n : Nat) (form : Form (Criteria Condition)) : Prop :=
  ∀ s c r, form s c r → c.depth ≤ n

/-- An empty group in the place of a condition is one level more than the condition. -/
theorem depthWithin_primary {n : Nat} {inner : Form (Criteria Condition)} (some : 1 ≤ n)
    (groups : DepthWithin n inner) : DepthWithin n (Primary inner) := by
  intro s c r h
  cases h with
  | group _ inside _ => exact groups _ _ _ inside
  | empty _ isEmpty => cases isEmpty <;> simpa [depth, depthOf] using some
  | call _ _ => simp [depth]

theorem depthWithin_chain {n : Nat} {operator : List Char → List Char → Prop}
    {part : Form (Criteria Condition)} {group : List (Criteria Condition) → Criteria Condition}
    (grouped : ∀ cs, (group cs).depth = depthOf cs + 1) (parts : DepthWithin n part) :
    DepthWithin (n + 1) (Chain operator part group) := by
  intro s c r h
  cases h with
  | one isPart => exact Nat.le_succ_of_le (parts _ _ _ isPart)
  | several isPart more =>
    rw [grouped]
    exact Nat.succ_le_succ (depthOf_le.2 (more.forall_mem parts isPart))

/-- Each group in parentheses adds an `any` and an `all` at most. -/
theorem depthWithin_expr (n : Nat) : DepthWithin (2 * n + 3) (Expr n) := by
  have disjunction {m : Nat} {inner : Form (Criteria Condition)} (some : 1 ≤ m)
      (groups : DepthWithin m inner) : DepthWithin (m + 2) (Disjunction inner) :=
    depthWithin_chain (fun _ => by rw [depth])
      (depthWithin_chain (fun _ => by rw [depth]) (depthWithin_primary some groups))
  induction n with
  | zero => exact disjunction (Nat.le_refl 1) fun _ _ _ h => h.elim
  | succ n ih => exact disjunction (by omega) ih

/-- A tree that was read from a text is shallow, and so are its parameters. -/
theorem depth_of_ofText {text : String} {c : Criteria Condition} (read : ofText text = .ok c) :
    c.depth ≤ 131 ∧ ∀ k ∈ c.leaves, ∀ v ∈ k.params, v.depth ≤ 64 := by
  have spells := spells_of_ofText read
  have writable := writable_of_spells spells
  obtain ⟨r, whole, _⟩ := spells
  exact ⟨depthWithin_expr Expression.maxNesting _ _ _ whole,
    fun k hk => (writable.leaves k hk).2⟩

/-! ## Trees of documents -/

section Documents

variable {α : Type} {leaf : Decoder α} {leaf? : Value → Option α}

theorem depth_of_gives {name : String} {vs : List Value} {v : Value}
    (h : Gives [(name, .arr vs)] v) : v.depth = Value.depthItems vs + 2 := by
  rcases gives_one_iff.1 h with rfl | rfl
  · simp [Value.depth, Value.depthMembers]
  · simp [Value.depth, Value.depthItems]

/-- A group nests as deep as its children, and its value two levels more than theirs. -/
theorem two_mul_depthOf_le {R : Value → Criteria α → Prop} {vs : List Value}
    {cs : List (Criteria α)} (each : List.Forall₂ R vs cs)
    (within : ∀ c ∈ cs, ∀ v, R v c → 2 * c.depth ≤ v.depth) :
    2 * depthOf cs ≤ Value.depthItems vs := by
  have children : depthOf cs ≤ Value.depthItems vs / 2 := by
    refine depthOf_le.2 fun c hc => ?_
    obtain ⟨v, hv, read⟩ := exists_of_mem_left (List.Forall₂.flip each) hc
    have child := within c hc v read
    have item := Value.depthItems_le.1 (Nat.le_refl _) v hv
    omega
  omega

/-- Each level of a tree that was set aside costs two levels of the value. -/
theorem two_mul_depth_le_of_node? (c : Criteria α) : ∀ v,
    (node? leaf? v = some c → 2 * c.depth ≤ v.depth) ∧
    (conjunction? leaf? v = some c → 2 * c.depth ≤ v.depth) := by
  induction c with
  | leaf a => simp [depth]
  | all cs ih =>
    refine fun v => ⟨fun h => ?_, fun h => ?_⟩
    · rcases node?_eq_some_iff.1 h with h | ⟨_, a, _, other⟩
      · exact absurd h (nested?_ne_all v cs)
      · cases other
    · obtain ⟨vs, ds, given, read, same⟩ := conjunction?_eq_some_iff.1 h
      cases same
      have children := two_mul_depthOf_le (nodes?_eq_some_iff.1 read) fun c hc w => (ih c hc w).1
      rw [depth_of_gives given, depth]
      omega
  | any cs ih =>
    refine fun v => ⟨fun h => ?_, fun h => ?_⟩
    · rcases node?_eq_some_iff.1 h with h | ⟨_, a, _, other⟩
      · obtain ⟨vs, ds, given, read, same⟩ := nested?_eq_some_iff.1 h
        cases same
        have children := two_mul_depthOf_le (conjunctions?_eq_some_iff.1 read)
          fun c hc w => (ih c hc w).2
        rw [depth_of_gives given, depth]
        omega
      · cases other
    · obtain ⟨_, _, _, _, other⟩ := conjunction?_eq_some_iff.1 h
      cases other

/-- A record of one list of trees costs two levels of the draft. -/
theorem two_mul_depth_le_of_record {name wanted : String} {strict : Bool}
    {d : Decoder (Criteria α)} {group : List (Criteria α) → Criteria α}
    (grouped : ∀ cs, (group cs).depth = depthOf cs + 1)
    (within : ∀ (x : Draft) c, d.decode .text x = .ok c → 2 * c.depth ≤ x.depth) {draft : Draft}
    {c : Criteria α} (h : (((Record.required name (.list d)).map group).toDecoder wanted
      strict).decode .text draft = .ok c) : 2 * c.depth ≤ draft.depth := by
  obtain ⟨n, cs, room, rfl, each⟩ := Record.one_list_inside h
  have children : depthOf cs ≤ n / 2 := by
    refine depthOf_le.2 fun c hc => ?_
    obtain ⟨x, shallow, decoded⟩ := each c hc
    have child := within x c decoded
    omega
  rw [grouped]
  omega

theorem two_mul_depth_le {draft : Draft} {c : Criteria α}
    (h : (Criteria.decoder leaf).decode .text draft = .ok c) : 2 * c.depth ≤ draft.depth := by
  refine two_mul_depth_le_of_record (fun _ => by rw [depth]) (fun x c conjunction => ?_) h
  refine two_mul_depth_le_of_record (fun _ => by rw [depth]) (fun y d node => ?_) conjunction
  simp only [nodeDecoder] at node
  split at node
  · cases node
  · next v settled =>
    split at node
    · next found =>
      cases node
      have inside := (two_mul_depth_le_of_node? _ v).1 found
      have shallower := Draft.depth_settle y settled
      omega
    · cases node

/-- A tree that was read from the text of a document is shallow. -/
theorem depth_of_ofJsonText {text : String} {c : Criteria α}
    (read : ofJsonText leaf text = .ok c) : c.depth ≤ 63 := by
  obtain ⟨draft, within, decoded⟩ := Decoder.of_ofText read
  have levels := two_mul_depth_le decoded
  rw [Json.maxNesting] at within
  omega

end Documents

/-! ## Trees as deep as they may be -/

section Towers

variable {α : Type}

/-- An `all` in an `any` in each of `n` groups, with an empty group in the innermost. -/
def tower (k : Condition) : Nat → Criteria Condition
  | 0 => .any [.all [.all [], .leaf k], .leaf k]
  | n + 1 => .any [.all [tower k n, .leaf k], .leaf k]

theorem depth_tower (k : Condition) (n : Nat) : (tower k n).depth = 2 * n + 3 := by
  induction n with
  | zero => rfl
  | succ n ih =>
    simp only [tower, depth, depthOf, ih]
    omega

theorem tidy_tower (k : Condition) (n : Nat) :
    Tidy (tower k n) ∧ ∀ d ds, tower k n ≠ .all (d :: ds) := by
  have level {c : Criteria Condition} (inner : Tidy c) (apart : ∀ d ds, c ≠ .all (d :: ds)) :
      Tidy (.any [.all [c, .leaf k], .leaf k]) := by
    refine .any (by simp) (fun d hd => ?_) fun d hd e es => ?_
    · rcases List.mem_pair.1 hd with rfl | rfl
      · refine .all (by simp) (fun e he => ?_) fun e he f fs => ?_
        · rcases List.mem_pair.1 he with rfl | rfl
          · exact inner
          · exact .leaf k
        · rcases List.mem_pair.1 he with rfl | rfl
          · exact apart f fs
          · exact nofun
      · exact .leaf k
    · rcases List.mem_pair.1 hd with rfl | rfl <;> exact nofun
  induction n with
  | zero => exact ⟨level (.all (by simp) (by simp) (by simp)) nofun, nofun⟩
  | succ n ih => exact ⟨level ih.1 ih.2, nofun⟩

theorem parens_tower (k : Condition) (n : Nat) :
    parens false (tower k n) = n ∧ parens true (tower k n) = n + 1 := by
  induction n with
  | zero => simp [tower, parens_any, parensOf, parens]
  | succ n ih => simp [tower, parens_any, parensOf, parens, ih.2]

theorem leaves_tower (k : Condition) (n : Nat) : ∀ l ∈ (tower k n).leaves, l = k := by
  induction n with
  | zero => simp [tower, leaves, leavesOf]
  | succ n ih =>
    intro l hl
    have split : l ∈ (tower k n).leaves ∨ l = k := by simpa [tower, leaves, leavesOf] using hl
    exact split.elim (ih l) id

theorem mem_leaves_tower (k : Condition) (n : Nat) : k ∈ (tower k n).leaves := by
  cases n <;> simp [tower, leaves, leavesOf]

/-- The text of such a tree is read back. -/
theorem ofText_tower {k : Condition} (spellable : Spellable k) {n : Nat}
    (few : n ≤ Expression.maxNesting) : ofText (toString (tower k n)) = .ok (tower k n) := by
  have writable : Writable (tower k n) :=
    ⟨fun l hl => leaves_tower k n l hl ▸ spellable, by rwa [(parens_tower k n).1]⟩
  rw [ofText_toString writable, (tidy_tower k n).1.asText_eq]

/-- An empty list in `n` lists. -/
def nested : Nat → Value
  | 0 => .null
  | n + 1 => .arr [nested n]

theorem depth_nested (n : Nat) : (nested n).depth = n ∧ (nested n).Canonical := by
  induction n with
  | zero => exact ⟨rfl, trivial⟩
  | succ n ih =>
    simp [nested, Value.depth, Value.depthItems, Value.Canonical, Value.CanonicalItems, ih]

/-- A condition with a parameter of `n` lists. -/
def withNested (n : Nat) : Condition :=
  ⟨"a", [nested n], rfl, fun _ hv => List.mem_singleton.1 hv ▸ (depth_nested n).2⟩

theorem spellable_withNested {n : Nat} (few : n ≤ Expression.maxNesting) :
    Spellable (withNested n) := by
  have isName : Name "a".toList := .mk rfl (by simp)
  refine ⟨isName, fun v hv => ?_⟩
  rwa [List.mem_singleton.1 hv, (depth_nested n).1]

theorem exists_deepest_text : ∃ text c, ofText text = .ok c ∧ c.depth = 131 ∧
    ∃ k ∈ c.leaves, ∃ v ∈ k.params, v.depth = 64 := by
  have deepest : (64 : Nat) ≤ Expression.maxNesting := Nat.le_refl 64
  refine ⟨_, _, ofText_tower (spellable_withNested deepest) deepest, depth_tower _ 64,
    withNested 64, mem_leaves_tower _ 64, nested 64, ?_, (depth_nested 64).1⟩
  exact List.mem_singleton_self _

/-- An `all` in an `any` in each of `n` documents, and an empty one in the innermost. -/
def documents : Nat → Criteria α
  | 0 => .any []
  | n + 1 => .any [.all [documents n]]

theorem depth_documents (n : Nat) : (documents n : Criteria α).depth = 2 * n + 1 := by
  induction n with
  | zero => rfl
  | succ n ih =>
    simp only [documents, depth, depthOf, ih]
    omega

theorem leaves_documents (n : Nat) : (documents n : Criteria α).leaves = [] := by
  induction n with
  | zero => rfl
  | succ n ih => simp [documents, leaves, leavesOf, ih]

/-- Such a tree has the groups of a document. -/
theorem asNode_documents (n : Nat) :
    asNode (documents n : Criteria α) = documents n ∧
      asDocument (documents n : Criteria α) = documents n := by
  induction n with
  | zero => exact ⟨rfl, rfl⟩
  | succ n ih => simp [documents, asNode, asDocument, asConjunctions, asConjunction, asNodes, ih.1]

theorem depth_toJson_documents (n : Nat) (write : α → Value) :
    (toJson write (documents n)).depth = 4 * n + 2 ∧
      (node write (documents n)).depth = 4 * n + 2 := by
  induction n with
  | zero => simp [documents, toJson, node, conjunctions, depth_anyOf, Value.depthItems]
  | succ n ih =>
    simp only [documents, toJson, node, conjunctions, conjunction, nodes, depth_anyOf, depth_allOf,
      Value.depthItems, ih.2]
    omega

theorem integral_documents (n : Nat) : (documents n : Criteria Condition).Integral := by
  simp [Integral, leaves_documents]

theorem exists_deepest_document :
    ∃ text c, ofJsonText Condition.decoder text = .ok c ∧ c.depth = 63 := by
  have shallow : (documents 31 : Criteria Condition).conditionsJson.depth ≤ Json.maxNesting := by
    rw [conditionsJson, (depth_toJson_documents 31 _).1]
    decide
  refine ⟨_, _, (ofJsonText_text (integral_documents 31)).1 shallow, ?_⟩
  rw [(asNode_documents 31).2, depth_documents]

end Towers

end Criteria

/-! ## Trees of requests -/

section Requests

variable {α β γ : Type}

theorem readBody_ok {d : Decoder α} {body : List Glyph} {a : α}
    (read : Owner.readBody d body = .ok a) : d.ofText body = .ok a := by
  unfold Owner.readBody at read
  cases decoded : d.ofText body with
  | error f => simp [decoded, Except.mapError] at read
  | ok b => simpa [decoded, Except.mapError] using read

/-- Criteria that stand in a request are shallow. -/
theorem depth_of_request {first : Record α} {second : Record β} {name wanted : String}
    {f : α × β × Criteria Condition → γ} {body : List Glyph} {request : γ}
    (read : Owner.readBody (((first.and (second.and
      (Record.required name Criteria.conditionsDecoder))).map f).toDecoder wanted false) body
      = .ok request) : ∃ a b c, f (a, b, c) = request ∧ c.depth ≤ 63 := by
  obtain ⟨draft, within, decoded⟩ := Decoder.of_ofText (readBody_ok read)
  obtain ⟨draft?, absent, whole, inside⟩ := Record.inside decoded
  obtain ⟨⟨a, b, c⟩, built, same⟩ := Record.build_map_iff.1 whole
  have criteria := (Record.build_and_iff.1 (Record.build_and_iff.1 built).2).2
  refine ⟨a, b, c, same, ?_⟩
  obtain ⟨member, found, decoded⟩ | ⟨_, nothing⟩ := Record.build_field_iff.1 criteria
  · have levels : 2 * c.depth ≤ member.depth := Criteria.two_mul_depth_le decoded
    have less := inside name member found
    rw [maxNesting] at within
    omega
  · cases nothing

theorem ApplyRequest.depth_of_readBody {body : List Glyph} {r : ApplyRequest}
    (read : Owner.readBody decoder body = .ok r) : r.conditions.depth ≤ 63 := by
  obtain ⟨a, b, c, rfl, shallow⟩ := depth_of_request read
  exact shallow

theorem ResolveRequest.depth_of_readBody {body : List Glyph} {r : ResolveRequest}
    (read : Owner.readBody decoder body = .ok r) : r.filters.depth ≤ 63 := by
  obtain ⟨a, b, c, rfl, shallow⟩ := depth_of_request read
  exact shallow

theorem readBody_of_ok {d : Decoder α} {body : List Glyph} {a : α} (read : d.ofText body = .ok a) :
    Owner.readBody d body = .ok a := by
  rw [Owner.readBody, read]
  rfl

theorem ApplyRequest.exists_deepest :
    ∃ body r, Owner.readBody decoder body = .ok r ∧ r.conditions.depth = 63 := by
  have shallow : (toJson ⟨"", "", .documents 31⟩).depth ≤ maxNesting := by
    simp only [toJson, Criteria.conditionsJson, Value.depth, Value.depthMembers,
      (Criteria.depth_toJson_documents 31 _).1]
    decide
  have whole := (follows (r := ⟨"", "", .documents 31⟩) (Criteria.integral_documents 31)).ofText.1
    shallow
  rw [decode_toJson] at whole
  refine ⟨_, _, readBody_of_ok whole, ?_⟩
  rw [(Criteria.asNode_documents 31).2, Criteria.depth_documents]

theorem ResolveRequest.exists_deepest :
    ∃ body r, Owner.readBody decoder body = .ok r ∧ r.filters.depth = 63 := by
  have shallow : (toJson ⟨none, "", .documents 31⟩).depth ≤ maxNesting := by
    simp only [toJson, Criteria.conditionsJson, List.nil_append, Value.depth, Value.depthMembers,
      (Criteria.depth_toJson_documents 31 _).1]
    decide
  obtain ⟨_, whole⟩ | ⟨beyond, _⟩ := ResolveRequest.ofText "" (.documents 31)
  · rw [Criteria.map_reread (Criteria.integral_documents 31)] at whole
    refine ⟨_, _, readBody_of_ok whole, ?_⟩
    rw [(Criteria.asNode_documents 31).2, Criteria.depth_documents]
  · exact absurd ⟨shallow, Criteria.integral_documents 31⟩ beyond

end Requests

/-! ## The law of depth -/

/-- No reader looks into a group or a literal beyond its limit, for it reads the same whatever one
puts there. So the tree of a text has at most 131 groups inside one another, with parameters of at
most 64 levels, and the tree of a document at most 63, also in the body of a request. Each of these
bounds is reached. -/
theorem foreign_input_stays_shallow :
    (∀ beyond : Nat → List Char → Expression.Parsed (Criteria Condition), ∃ body,
      Expression.CountsGroups body ∧ ∀ depth, 64 < depth → body depth = beyond depth) ∧
    (∀ body, Expression.CountsGroups body → body 0 = Expression.orChain 64) ∧
    (∀ beyond : Nat → List Char → Expression.Parsed Value, ∃ value,
      Expression.CountsLiterals value ∧ ∀ depth, 64 < depth → value depth = beyond depth) ∧
    (∀ value, Expression.CountsLiterals value → value 0 = Expression.literal 64) ∧
    (∀ text c, Criteria.ofText text = .ok c →
      c.depth ≤ 131 ∧ ∀ k ∈ c.leaves, ∀ v ∈ k.params, v.depth ≤ 64) ∧
    (∀ {α : Type} (leaf : Decoder α) (text : String) (c : Criteria α),
      Criteria.ofJsonText leaf text = .ok c → c.depth ≤ 63) ∧
    (∀ body r, Owner.readBody ApplyRequest.decoder body = .ok r → r.conditions.depth ≤ 63) ∧
    (∀ body r, Owner.readBody ResolveRequest.decoder body = .ok r → r.filters.depth ≤ 63) ∧
    (∃ text c, Criteria.ofText text = .ok c ∧ c.depth = 131 ∧
      ∃ k ∈ c.leaves, ∃ v ∈ k.params, v.depth = 64) ∧
    (∃ text c, Criteria.ofJsonText Condition.decoder text = .ok c ∧ c.depth = 63) ∧
    (∃ body r, Owner.readBody ApplyRequest.decoder body = .ok r ∧ r.conditions.depth = 63) ∧
    ∃ body r, Owner.readBody ResolveRequest.decoder body = .ok r ∧ r.filters.depth = 63 := by
  refine ⟨Expression.exists_countsGroups, fun body counts => counts.body_eq (n := 64) (by decide),
    Expression.exists_countsLiterals, fun value counts => counts.value_eq (n := 64) (by decide),
    fun text c => Criteria.depth_of_ofText, fun leaf text c => Criteria.depth_of_ofJsonText,
    fun body r => ApplyRequest.depth_of_readBody, fun body r => ResolveRequest.depth_of_readBody,
    Criteria.exists_deepest_text, Criteria.exists_deepest_document, ApplyRequest.exists_deepest,
    ResolveRequest.exists_deepest⟩

end Permit
