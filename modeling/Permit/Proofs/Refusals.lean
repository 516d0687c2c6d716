-- What the text form refuses of the trees that can be printed: parameters and groups in
-- parentheses that nest too deep. The reader takes all that stands before the first of them and
-- stops there, so a printed tree can be read again exactly if it is writable.
import Permit.Proofs.Rereading

namespace Permit.Expression.Grammar

open Json

/-! ## Failures that end the reading -/

section Failing

variable {α β : Type}

/-- It failed, and no alternative is tried. -/
def Refused (p : Parsed α) : Prop := ∃ f : Failure, p = .error f ∧ f.committed = true

theorem Refused.map {p : Parsed α} (h : Refused p) (f : α → β) : Refused (p.map f) := by
  obtain ⟨failure, rfl, committed⟩ := h
  exact ⟨failure, rfl, committed⟩

/-- The reader fails there. -/
def Fails (read : List Char → Parsed α) (s : List Char) : Prop :=
  ∃ f : Failure, read s = .error f

theorem Refused.fails {read : List Char → Parsed α} {s : List Char} (h : Refused (read s)) :
    Fails read s := by
  obtain ⟨f, failed, _⟩ := h
  exact ⟨f, failed⟩

theorem Fails.commit {read : List Char → Parsed α} {s : List Char} (h : Fails read s) :
    Refused (read s).commit := by
  obtain ⟨f, failed⟩ := h
  rw [failed]
  exact ⟨_, rfl, rfl⟩

end Failing

/-! ## Lists -/

section Lists

variable {α : Type} {item : Form α} {read : List Char → Parsed α} {text : α → List Char}
  {fine : α → Prop} {blanks : List Char} {close : Char}

/-- The text of an item is refused wherever it stands. -/
def Blocked (read : List Char → Parsed α) (text : α → List Char) (a : α) : Prop :=
  ∀ r, NoBlank (text a ++ r) ∧ Refused (read (text a ++ r))

/-- The items after the first, each after a comma. -/
def others (blanks : List Char) (text : α → List Char) (as : List α) : List Char :=
  as.flatMap fun a => ',' :: (blanks ++ text a)

theorem length_le_others (blanks : List Char) (text : α → List Char) (as : List α) :
    as.length ≤ (others blanks text as).length := by
  induction as with
  | nil => simp
  | cons a rest ih =>
    unfold others at *
    simp only [List.flatMap_cons, List.length_append, List.length_cons]
    omega

theorem delimited_others (isClose : IsClose close) (as : List α) (r : List Char) :
    Delimited (others blanks text as ++ close :: r) := by
  cases as with
  | nil => exact Blanks.done.delimited (.inr isClose)
  | cons a rest => exact Blanks.done.delimited (.inl rfl)

/-- Where some item is not fine, the first is refused, or it is read and another is not fine. -/
theorem first_refused_or_read (readable : Readable read item) (isClose : IsClose close) {a : α}
    {rest : List α} {s r : List Char} (left : s = others blanks text rest ++ close :: r)
    (taken : ∀ b ∈ a :: rest, fine b → ∀ r, item (text b ++ r) b r)
    (blocked : ∀ b ∈ a :: rest, ¬ fine b → Blocked read text b) (one : ∃ b ∈ a :: rest, ¬ fine b) :
    NoBlank (text a ++ s) ∧ (Refused (read (text a ++ s)) ∨
      read (text a ++ s) = .ok (a, s) ∧ ∃ b ∈ rest, ¬ fine b) := by
  by_cases first : fine a
  · have isItem := taken a (by simp) first s
    have ends := left ▸ delimited_others isClose rest r
    refine ⟨readable.starts _ _ _ isItem, .inr ⟨readable.complete _ _ _ isItem ends, ?_⟩⟩
    obtain ⟨b, hb, other⟩ := one
    rcases List.mem_cons.1 hb with rfl | hb
    · exact absurd first other
    · exact ⟨b, hb, other⟩
  · obtain ⟨start, refused⟩ := blocked a (by simp) first s
    exact ⟨start, .inl refused⟩

/-- If the items that are fine are read and all others refused, then no list is read past one
that is not fine. -/
theorem moreItems_refused (readable : Readable read item)
    (skipped : ∀ s, Blanks (blanks ++ s) s) (isClose : IsClose close) {as : List α}
    {r : List Char} (taken : ∀ a ∈ as, fine a → ∀ r, item (text a ++ r) a r)
    (blocked : ∀ a ∈ as, ¬ fine a → Blocked read text a) (one : ∃ a ∈ as, ¬ fine a) :
    ∀ fuel, as.length ≤ fuel →
      Refused (moreItems comma read fuel (others blanks text as ++ close :: r)) := by
  induction as with
  | nil => simp at one
  | cons a rest ih =>
    intro fuel enough
    obtain ⟨fuel, rfl⟩ := Nat.exists_eq_add_of_lt enough
    obtain ⟨start, ⟨f, failed, committed⟩ | ⟨isRead, later⟩⟩ :=
      first_refused_or_read (r := r) readable isClose rfl taken blocked one
    all_goals
      rw [others, List.flatMap_cons, ← others, List.cons_append, List.cons_append,
        List.append_assoc, List.append_assoc, moreItems, comma_complete .done (skipped _) start]
      dsimp only
    · rw [failed]
      exact ⟨f, if_pos committed, committed⟩
    · rw [isRead]
      exact (ih (fun b hb => taken b (by simp [hb])) (fun b hb => blocked b (by simp [hb])) later _
        (by omega)).map _

theorem separated_refused (readable : Readable read item)
    (skipped : ∀ s, Blanks (blanks ++ s) s) (isClose : IsClose close) {as : List α}
    {r : List Char} (taken : ∀ a ∈ as, fine a → ∀ r, item (text a ++ r) a r)
    (blocked : ∀ a ∈ as, ¬ fine a → Blocked read text a) (one : ∃ a ∈ as, ¬ fine a) :
    Refused (separated comma read (skipBlanks (listed blanks text as ++ close :: r))) := by
  cases as with
  | nil => simp at one
  | cons a rest =>
    obtain ⟨start, ⟨f, failed, committed⟩ | ⟨isRead, later⟩⟩ :=
      first_refused_or_read (r := r) readable isClose rfl taken blocked one
    all_goals
      rw [listed, ← others, List.append_assoc, skipBlanks_eq .done start, separated]
    · rw [failed]
      exact ⟨f, if_pos committed, committed⟩
    · rw [isRead]
      refine (moreItems_refused readable skipped isClose (fun b hb => taken b (by simp [hb]))
        (fun b hb => blocked b (by simp [hb])) later _ ?_).map _
      have := length_le_others blanks text rest
      simp only [List.length_append]
      omega

end Lists

/-! ## Literals -/

theorem refused_array (s : List Char) : Refused (literal 0 ('[' :: s)) := by
  rw [literal, string_stops (by decide), wordLiteral?_none (by decide) (by decide) (by decide),
    number_stops (by decide) (by decide)]
  exact ⟨_, rfl, rfl⟩

theorem refused_object (s : List Char) : Refused (literal 0 ('\x7b' :: s)) := by
  rw [literal, string_stops (by decide), wordLiteral?_none (by decide) (by decide) (by decide),
    number_stops (by decide) (by decide)]
  exact ⟨_, rfl, rfl⟩

/-- A member whose value is refused. -/
theorem Blocked.member {value : List Char → Parsed Value} {m : String × Value}
    (h : Blocked value Value.write m.2) : Blocked (member value) memberText m := by
  intro r
  obtain ⟨start, refused⟩ := h r
  have isKey := quoted_quote m.1 (':' :: (m.2.write ++ r))
  have colon : (char ':' (skipBlanks (':' :: (m.2.write ++ r)))).commit
      = .ok ((), m.2.write ++ r) := by
    rw [commit_ok, char_ok, skipBlanks_cons .done rfl (by decide)]
  unfold memberText
  rw [List.append_assoc, List.cons_append]
  refine ⟨isKey.noBlank, ?_⟩
  rw [Expression.member, string_complete isKey]
  dsimp only
  rw [colon]
  dsimp only
  rw [skipBlanks_eq .done start]
  exact refused.fails.commit.map _

section Deep

variable {n : Nat} (blocked : ∀ v : Value, v.Canonical → n < v.depth →
  Blocked (literal n) Value.write v)
include blocked

theorem blocked_array {items : List Value} (canonical : (Value.arr items).Canonical)
    (deep : n + 1 < (Value.arr items).depth) :
    Blocked (literal (n + 1)) Value.write (.arr items) := by
  intro r
  rw [Value.depth, Nat.add_lt_add_iff_right, ← Nat.not_le, Value.depthItems_le] at deep
  rw [Value.Canonical, Value.canonicalItems_iff] at canonical
  have deeper : ∃ v ∈ items, ¬ v.depth ≤ n := by simpa using deep
  have refused : Refused (separated comma (literal n)
      (skipBlanks (listed [] Value.write items ++ ']' :: r))) :=
    separated_refused (readable_literal n) (fun _ => .done) (.inl rfl)
      (fun v hv => literal_write n v (canonical v hv))
      (fun v hv beyond => blocked v (canonical v hv) (Nat.not_le.1 beyond)) deeper
  obtain ⟨f, failed, committed⟩ := refused
  rw [Value.write, writeItems_eq, List.cons_append, List.cons_append, List.append_assoc,
    List.singleton_append]
  refine ⟨noBlank_cons rfl (by decide), ?_⟩
  rw [literal_array, arrayBody, failed]
  exact ⟨_, rfl, committed⟩

theorem blocked_object {members : List (String × Value)}
    (canonical : (Value.obj members).Canonical) (deep : n + 1 < (Value.obj members).depth) :
    Blocked (literal (n + 1)) Value.write (.obj members) := by
  intro r
  rw [Value.depth, Nat.add_lt_add_iff_right, ← Nat.not_le, Value.depthMembers_le] at deep
  rw [Value.Canonical, Value.canonicalMembers_iff] at canonical
  have deeper : ∃ m ∈ members, ¬ m.2.depth ≤ n := by simpa using deep
  have refused : Refused (separated comma (member (literal n))
      (skipBlanks (listed [] memberText members ++ '\x7d' :: r))) :=
    separated_refused (readable_member (readable_literal n)) (fun _ => .done) (.inr (.inl rfl))
      (fun m hm within => member_memberText (literal_write n m.2 (canonical.2 m hm) within))
      (fun m hm beyond => (blocked m.2 (canonical.2 m hm) (Nat.not_le.1 beyond)).member) deeper
  obtain ⟨f, failed, committed⟩ := refused
  rw [Value.write, writeMembers_eq, List.cons_append, List.cons_append, List.append_assoc,
    List.singleton_append]
  refine ⟨noBlank_cons rfl (by decide), ?_⟩
  rw [literal_object, objectBody, failed]
  exact ⟨_, rfl, committed⟩

end Deep

/-- A value that nests deeper than the budget is refused. -/
theorem blocked_of_depth (n : Nat) (v : Value) (canonical : v.Canonical) (deep : n < v.depth) :
    Blocked (literal n) Value.write v := by
  induction n generalizing v with
  | zero =>
    intro r
    cases v with
    | arr items =>
      rw [Value.write]
      exact ⟨noBlank_cons rfl (by decide), refused_array _⟩
    | obj members =>
      rw [Value.write]
      exact ⟨noBlank_cons rfl (by decide), refused_object _⟩
    | _ => cases deep
  | succ n ih =>
    cases v with
    | arr items => exact blocked_array ih canonical deep
    | obj members => exact blocked_object ih canonical deep
    | _ => cases deep

/-! ## Conditions and groups -/

section Calls

variable {name s t u : List Char} {k : Condition} (isName : Name name)
  (same : name = k.rule.toList) (opened : Blanks t ('(' :: u))
  (refused : Refused (separated comma (literal maxNesting) (skipBlanks u)))
include isName same opened refused

/-- A condition whose parameters are refused is not read. -/
theorem condition_fails : Fails condition (name ++ t) := by
  obtain ⟨f, failed, _⟩ := refused
  have rule : String.ofList name = k.rule := by rw [same, String.ofList_toList]
  have opens : openParams t = .ok ((), skipBlanks u) := by
    rw [openParams, char_ok (x := ()).2 (skipBlanks_cons opened rfl (by decide))]
  refine ⟨f, ?_⟩
  rw [condition, name_complete isName opened.noNameChar]
  simp only [rule, k.permitted, opens, failed]
  rfl

/-- Its name has been read, so no group is tried in its place. -/
theorem primary_call_fails {group : List Char → Parsed (Criteria Condition)}
    (before : Blanks s (name ++ t)) : Fails (primary group) s := by
  obtain ⟨f, failed⟩ := condition_fails isName same opened refused
  have single := emptyGroup?_named isName same opened
  obtain ⟨c, v, start, isChar⟩ := isName.head (s := t)
  rw [start] at failed single before
  rw [Fails, primary_name before isChar, single, failed]
  exact ⟨_, rfl⟩

end Calls

/-- The parameters of a condition with a name of the grammar that cannot be spelt. -/
theorem params_refused {k : Condition} (isName : Name k.rule.toList)
    (unspellable : ¬ Spellable k) (r : List Char) :
    Refused (separated comma (literal maxNesting)
      (skipBlanks (Condition.writeParams k.params ++ ')' :: r))) := by
  have deeper : ∃ v ∈ k.params, ¬ v.depth ≤ maxNesting := by
    simpa [Spellable, isName] using unspellable
  rw [writeParams_eq]
  exact separated_refused (readable_literal maxNesting) (fun _ => .blank rfl .done)
    (.inr (.inr rfl)) (fun v hv => literal_write maxNesting v (k.canonical v hv))
    (fun v hv beyond => blocked_of_depth maxNesting v (k.canonical v hv) (Nat.not_le.1 beyond))
    deeper

/-- A group whose text is not read is not read either. -/
theorem primary_group_fails {group : List Char → Parsed (Criteria Condition)} {s t : List Char}
    (opened : Blanks s ('(' :: t)) (h : Fails group t) : Fails (primary group) s := by
  obtain ⟨f, failed⟩ := h
  rw [Fails, primary, skipBlanks_cons opened rfl (by decide)]
  change ∃ f, (group t).expecting .condition = .error f
  rw [failed]
  exact ⟨_, rfl⟩

/-! ## Chains -/

section Chains

variable {lower upper : String} {part : Form (Criteria Condition)}
  {read : List Char → Parsed (Criteria Condition)}

/-- Parts with operators between them lead to a place where a part is due and none is read. -/
inductive Breaks (operator : List Char → List Char → Prop) (part : Form (Criteria Condition))
    (refused : List Char → Prop) : List Char → Prop
  | here {s} : refused s → Breaks operator part refused s
  | later {s t u c} : part s c t → operator t u → Breaks operator part refused u →
      Breaks operator part refused s

theorem operands_fail (keyword : Keyword lower upper) (shrinks : Shrinks part)
    {ends : List Char → Prop} (complete : Complete ends read part)
    (between : ∀ s t, Operator lower upper s t → ends s) {s : List Char}
    (h : Breaks (Operator lower upper) part (Fails read) s) :
    ∀ t fuel, Operator lower upper t s → t.length ≤ fuel →
      Fails (operands (operator? lower upper) read fuel) t := by
  induction h with
  | here failed =>
    intro t fuel isOperator enough
    have shorter := isOperator.length_lt keyword
    obtain ⟨fuel, rfl⟩ := Nat.exists_eq_succ_of_ne_zero (n := fuel) (by omega)
    obtain ⟨f, failed, _⟩ := failed.commit
    refine ⟨f, ?_⟩
    rw [operands, operator?_complete keyword isOperator]
    dsimp only
    rw [failed]
  | later isPart next _ ih =>
    intro t fuel isOperator enough
    have shorter := isOperator.length_lt keyword
    have := shrinks _ _ _ isPart
    obtain ⟨fuel, rfl⟩ := Nat.exists_eq_succ_of_ne_zero (n := fuel) (by omega)
    obtain ⟨f, failed⟩ := ih _ fuel next (by omega)
    have here := complete _ _ _ isPart (between _ _ next)
    refine ⟨f, ?_⟩
    rw [operands, operator?_complete keyword isOperator]
    dsimp only
    rw [commit_ok.2 here]
    dsimp only
    rw [failed]
    rfl

/-- A chain that leads to a part that is not read is not read either. -/
theorem chain_fails (keyword : Keyword lower upper) (shrinks : Shrinks part)
    {ends : List Char → Prop} (complete : Complete ends read part)
    (between : ∀ s t, Operator lower upper s t → ends s)
    (group : List (Criteria Condition) → Criteria Condition) {s : List Char}
    (h : Breaks (Operator lower upper) part (Fails read) s) :
    Fails (chain group lower upper read) s := by
  cases h with
  | here failed =>
    obtain ⟨f, failed⟩ := failed
    exact ⟨f, by rw [chain, failed]⟩
  | later isPart next more =>
    have := shrinks _ _ _ isPart
    obtain ⟨f, failed⟩ := operands_fail keyword shrinks complete between more _ _ next this
    have here := complete _ _ _ isPart (between _ _ next)
    refine ⟨f, ?_⟩
    rw [chain, here]
    dsimp only
    rw [failed]
    rfl

theorem Breaks.imp {operator : List Char → List Char → Prop} {refused other : List Char → Prop}
    (each : ∀ s, refused s → other s) {s : List Char} (h : Breaks operator part refused s) :
    Breaks operator part other s := by
  induction h with
  | here failed => exact .here (each _ failed)
  | later isPart next _ ih => exact .later isPart next ih

end Chains

end Permit.Expression.Grammar

namespace Permit.Criteria

open Expression Expression.Grammar

/-! ## Rows -/

section Rows

variable {operator : List Char → List Char → Prop} {part : Form (Criteria Condition)}
  {refused : List Char → Prop}

/-- After a row and an operator. -/
theorem Row.breaks {s t u : List Char} {as : List (Criteria Condition)}
    (h : Row operator part s as t) (between : operator t u)
    (more : Breaks operator part refused u) : Breaks operator part refused s := by
  obtain ⟨a, rest, v, rfl, first, others⟩ := h
  induction others generalizing s a with
  | none => exact .later first between more
  | part isOperator isPart _ ih => exact .later first isOperator (ih between _ isPart)

theorem breaks_lead (leads : Leads part) (also : ∀ s, refused s → refused (' ' :: s))
    {s : List Char} (h : Breaks operator part refused s) :
    Breaks operator part refused (' ' :: s) := by
  cases h with
  | here failed => exact .here (also _ failed)
  | later isPart next more => exact .later (leads _ _ _ isPart) next more

/-- The children of a group break off at the first that does, if all before it are rows. -/
theorem breaks_children {leaf : Condition → List Char} {inAll : Bool} {separator : String}
    {fine : Criteria Condition → Prop} (leads : Leads part)
    (also : ∀ s, refused s → refused (' ' :: s))
    (between : ∀ s, operator (separator.toList ++ s) (' ' :: s))
    {c : Criteria Condition} {rest : List (Criteria Condition)}
    (rows : ∀ d ∈ c :: rest, fine d → ∀ r,
      Row operator part (write leaf inAll d ++ r) (parts inAll d) r)
    (breaks : ∀ d ∈ c :: rest, ¬ fine d → ∀ r,
      Breaks operator part refused (write leaf inAll d ++ r))
    (one : ∃ d ∈ c :: rest, ¬ fine d) (r : List Char) :
    Breaks operator part refused
      (write leaf inAll c ++ writeRest leaf separator inAll rest ++ r) := by
  induction rest generalizing c with
  | nil =>
    obtain ⟨d, hd, other⟩ := one
    rw [List.mem_singleton.1 hd] at other
    simpa [writeRest] using breaks c (by simp) other r
  | cons d rest ih =>
    rw [List.append_assoc]
    by_cases first : fine c
    · have one : ∃ e ∈ d :: rest, ¬ fine e := by
        obtain ⟨e, he, other⟩ := one
        rcases List.mem_cons.1 he with rfl | he
        · exact absurd first other
        · exact ⟨e, he, other⟩
      have later := ih (fun e he => rows e (List.mem_cons_of_mem c he))
        (fun e he => breaks e (List.mem_cons_of_mem c he)) one
      have whole := (rows c (by simp) first _).breaks (between _) (breaks_lead leads also later)
      simpa [writeRest] using whole
    · exact breaks c (by simp) first _

end Rows

/-! ## A tree that is not writable -/

/-- What reads the text after an opening parenthesis. -/
def groupReader : Nat → List Char → Parsed (Criteria Condition)
  | 0 => tooDeep
  | n + 1 => groupBody (orChain n)

theorem orChain_eq (n : Nat) : orChain n
    = chain .any "or" "OR" (chain .all "and" "AND" (primary (groupReader n))) := by
  cases n <;> rfl

theorem groupReader_complete (n : Nat) (t : List Char) (c : Criteria Condition)
    (u r : List Char) (inside : Inner n t c u) (closed : Blanks u (')' :: r)) :
    groupReader n t = .ok (c, r) := by
  cases n with
  | zero => exact inside.elim
  | succ n => exact groupBody_complete (orChain_complete n) inside closed

theorem inner_shrinks (n : Nat) : Shrinks (Inner n) := by
  cases n with
  | zero => exact fun _ _ _ h => h.elim
  | succ n => exact expr_shrinks n

/-- Conjuncts that lead to a place where no part is read. -/
def BreaksAnd (n : Nat) : List Char → Prop :=
  Breaks (Operator "and" "AND") (Primary (Inner n)) (Fails (primary (groupReader n)))

/-- Chains of conjuncts that lead to one that breaks off. -/
def BreaksOr (n : Nat) : List Char → Prop :=
  Breaks (Operator "or" "OR") (Chain (Operator "and" "AND") (Primary (Inner n)) .all)
    (BreaksAnd n)

theorem BreaksOr.fails {n : Nat} {s : List Char} (h : BreaksOr n s) : Fails (orChain n) s := by
  have shrinks := primary_shrinks (inner_shrinks n)
  have complete := primary_complete (groupReader_complete n)
  have conjuncts := chain_complete keyword_and shrinks complete (fun _ _ _ => trivial) .all
  rw [orChain_eq]
  apply chain_fails keyword_or (Chain.length_le keyword_and shrinks) conjuncts
    (fun _ _ isOr => ⟨trivial, operator?_and_of_or isOr⟩)
  exact h.imp fun _ => chain_fails keyword_and shrinks complete (fun _ _ _ => trivial) .all

theorem breaksAnd_lead (n : Nat) (s : List Char) : BreaksAnd n s → BreaksAnd n (' ' :: s) :=
  breaks_lead (leads_primary (Inner n)) fun _ failed => failed

theorem groupBody_fails {read : List Char → Parsed (Criteria Condition)} {s : List Char}
    (h : Fails read s) : Fails (groupBody read) s := by
  obtain ⟨f, failed, _⟩ := h.commit
  exact ⟨f, by rw [groupBody, failed]⟩

/-- What can be spelt with `n` groups in parentheses inside one another. -/
structure Legible (inAll : Bool) (n : Nat) (c : Criteria Condition) : Prop where
  leaves : ∀ k ∈ c.leaves, Spellable k
  parens : parens inAll c ≤ n

/-- If a group is not legible, then one of its children is not. -/
theorem exists_illegible {inAll inner : Bool} {n m : Nat} {c : Criteria Condition}
    {cs : List (Criteria Condition)} (leaves : c.leaves = cs.flatMap leaves)
    (parens : parensOf inner cs ≤ m → c.parens inAll ≤ n) (h : ¬ Legible inAll n c) :
    ∃ d ∈ cs, ¬ Legible inner m d := by
  by_contra each
  simp only [not_exists, not_and, not_not] at each
  refine h ⟨fun k hk => ?_, parens (parensOf_le.2 fun d hd => (each d hd).parens)⟩
  rw [leaves] at hk
  obtain ⟨d, hd, hk⟩ := List.mem_flatMap.1 hk
  exact (each d hd).leaves k hk

/-- Where a tree is not legible, its text leads to a place where nothing is read. -/
def BreaksOff (n : Nat) (c : Criteria Condition) : Prop := ∀ r,
  (¬ Legible true n c → BreaksAnd n (write Condition.write true c ++ r)) ∧
  (¬ Legible false n c → BreaksOr n (write Condition.write false c ++ r))

/-- Where a text is the same inside an `all` and elsewhere, it breaks off at a conjunct. -/
theorem breaksOff_of_conjuncts {n : Nat} {c : Criteria Condition}
    (text : write Condition.write false c = write Condition.write true c)
    (same : parens false c = parens true c)
    (breaks : ∀ r, ¬ Legible true n c → BreaksAnd n (write Condition.write true c ++ r)) :
    BreaksOff n c := by
  intro r
  refine ⟨breaks r, fun illegible => .here ?_⟩
  rw [text]
  exact breaks r fun legible => illegible ⟨legible.leaves, same ▸ legible.parens⟩

theorem breaksAnd_condition {k : Condition} (isName : Name k.rule.toList)
    (unspellable : ¬ Spellable k) (n : Nat) (r : List Char) : BreaksAnd n (k.write ++ r) := by
  have text : k.write ++ r
      = k.rule.toList ++ '(' :: (Condition.writeParams k.params ++ ')' :: r) := by
    unfold Condition.write
    simp
  rw [text]
  exact .here (primary_call_fails isName rfl .done (params_refused isName unspellable r) .done)

theorem breaksAnd_all {n : Nat} {c : Criteria Condition} {rest : List (Criteria Condition)}
    (children : ∀ d ∈ c :: rest, BreaksOff n d) (illegible : ¬ Legible true n (.all (c :: rest)))
    (r : List Char) : BreaksAnd n (write Condition.write true (.all (c :: rest)) ++ r) := by
  have one : ∃ d ∈ c :: rest, ¬ Legible true n d :=
    exists_illegible (leaves_all _) (by rw [parens_all]; exact id) illegible
  rw [write]
  exact breaks_children (leads_primary _) (fun _ failed => failed) operator_and
    (fun d _ legible r => (spelt d legible.leaves n r).1 legible.parens)
    (fun d hd illegible r => (children d hd r).1 illegible) one r

section Several

variable {c d : Criteria Condition} {rest : List (Criteria Condition)}
  (children : ∀ e ∈ c :: d :: rest, ∀ n, BreaksOff n e)
include children

theorem breaksOr_any {n : Nat} (illegible : ¬ Legible false n (.any (c :: d :: rest)))
    (r : List Char) : BreaksOr n (write Condition.write false (.any (c :: d :: rest)) ++ r) := by
  have one : ∃ e ∈ c :: d :: rest, ¬ Legible false n e :=
    exists_illegible (leaves_any _) (by rw [parens_any]; exact id) illegible
  rw [write_any, if_neg (by decide)]
  exact breaks_children (leads_chain (leads_primary (Inner n)) .all) (breaksAnd_lead n) operator_or
    (fun e _ legible r => (spelt e legible.leaves n r).2 legible.parens)
    (fun e he illegible r => (children e he n r).2 illegible) one r

/-- In parentheses there is one group less to open, and the group is refused with what it
holds. -/
theorem breaksAnd_any {n : Nat} (illegible : ¬ Legible true n (.any (c :: d :: rest)))
    (r : List Char) : BreaksAnd n (write Condition.write true (.any (c :: d :: rest)) ++ r) := by
  rw [write_any, if_pos rfl, List.append_assoc, List.cons_append]
  refine .here (primary_group_fails .done ?_)
  cases n with
  | zero => exact ⟨_, rfl⟩
  | succ n =>
    have inside : ¬ Legible false n (.any (c :: d :: rest)) := by
      intro legible
      have enough := legible.parens
      rw [parens_any, if_neg (by decide)] at enough
      refine illegible ⟨legible.leaves, ?_⟩
      rw [parens_any, if_pos rfl]
      exact Nat.succ_le_succ enough
    have inner := breaksOr_any children inside (')' :: r)
    rw [write_any, if_neg (by decide)] at inner
    exact groupBody_fails inner.fails

end Several

theorem breaksOff (c : Criteria Condition) (names : ∀ k ∈ c.leaves, Name k.rule.toList) :
    ∀ n, BreaksOff n c := by
  induction c using cases_of_text with
  | leaf k =>
    intro n
    refine breaksOff_of_conjuncts (by rw [write, write]) (by rw [parens, parens])
      fun r illegible => ?_
    rw [write]
    refine breaksAnd_condition (names k (by simp [leaves])) (fun spellable => ?_) n r
    exact illegible ⟨by simpa [leaves] using spellable, by simp [parens]⟩
  | allNil =>
    have legible (inAll : Bool) (n : Nat) : Legible inAll n (.all []) :=
      ⟨by simp [leaves, leavesOf], by simp [parens]⟩
    exact fun n r => ⟨absurd (legible true n), absurd (legible false n)⟩
  | anyNil =>
    have legible (inAll : Bool) (n : Nat) : Legible inAll n (.any []) :=
      ⟨by simp [leaves, leavesOf], by simp [parens]⟩
    exact fun n r => ⟨absurd (legible true n), absurd (legible false n)⟩
  | all c rest ih =>
    intro n
    have children : ∀ d ∈ c :: rest, BreaksOff n d := fun d hd => ih d hd (fun k hk =>
      names k (by rw [leaves_all]; exact List.mem_flatMap.2 ⟨d, hd, hk⟩)) n
    exact breaksOff_of_conjuncts (by rw [write, write]) (by rw [parens_all, parens_all])
      fun r illegible => breaksAnd_all children illegible r
  | anyOne c ih =>
    intro n r
    have same (inAll : Bool) : Legible inAll n c → Legible inAll n (.any [c]) := fun legible =>
      ⟨by simpa [leaves_any] using legible.leaves, by rw [parens_any_one]; exact legible.parens⟩
    have child := ih (fun k hk => names k (by simpa [leaves_any] using hk)) n r
    rw [write, write]
    exact ⟨fun h => child.1 fun legible => h (same true legible),
      fun h => child.2 fun legible => h (same false legible)⟩
  | any c d rest ih =>
    have children : ∀ e ∈ c :: d :: rest, ∀ n, BreaksOff n e := fun e he => ih e he fun k hk =>
      names k (by rw [leaves_any]; exact List.mem_flatMap.2 ⟨e, he, hk⟩)
    exact fun n r => ⟨fun illegible => breaksAnd_any children illegible r,
      fun illegible => breaksOr_any children illegible r⟩

/-- A tree whose conditions have names of the grammar can be printed and read again exactly if it
is writable, and gives then what its text form keeps of it. -/
theorem ofText_toString_iff {c d : Criteria Condition}
    (names : ∀ k ∈ c.leaves, Name k.rule.toList) :
    ofText (toString c) = .ok d ↔ Writable c ∧ d = asText c := by
  constructor
  · intro h
    by_cases legible : Legible false maxNesting c
    · have writable : Writable c := ⟨legible.leaves, legible.parens⟩
      rw [ofText_toString writable] at h
      exact ⟨writable, (Except.ok.inj h).symm⟩
    · have breaks := (breaksOff c names maxNesting []).2 legible
      obtain ⟨f, failed⟩ := breaks.fails
      rw [List.append_nil] at failed
      unfold ofText at h
      rw [toList_toString, expression, failed] at h
      cases h
  · rintro ⟨writable, rfl⟩
    exact ofText_toString writable

end Permit.Criteria
