-- A printed tree spells the tree that its text form keeps, so reading it gives that one; and
-- each tree that was read can be printed and read again.
import Permit.Proofs.Flatten
import Permit.Proofs.Grammar.Expressions
import Permit.Proofs.Grammar.Writing

namespace Permit.Criteria

open Expression Expression.Grammar

variable {α : Type}

/-! ## Parentheses -/

mutual

/-- How many groups in parentheses the text of a tree has open at once; `inAll` when it stands
directly inside an `all`. The parentheses of conditions and of empty groups do not count. -/
def parens (inAll : Bool) : Criteria α → Nat
  | .leaf _ => 0
  | .all [] => 0
  | .any [] => 0
  | .all (c :: rest) => max (parens true c) (parensOf true rest)
  | .any [c] => parens inAll c
  | .any (c :: rest) =>
    max (parens false c) (parensOf false rest) + if inAll then 1 else 0

def parensOf (inAll : Bool) : List (Criteria α) → Nat
  | [] => 0
  | c :: rest => max (parens inAll c) (parensOf inAll rest)

end

theorem parensOf_le {inAll : Bool} {cs : List (Criteria α)} {n : Nat} :
    parensOf inAll cs ≤ n ↔ ∀ c ∈ cs, parens inAll c ≤ n := by
  induction cs with
  | nil => simp [parensOf]
  | cons c rest ih => simp [parensOf, ih]

theorem parens_all {inAll : Bool} {c : Criteria α} {rest : List (Criteria α)} :
    parens inAll (.all (c :: rest)) = parensOf true (c :: rest) := by
  rw [parens, parensOf]

theorem parens_any_one {inAll : Bool} {c : Criteria α} :
    parens inAll (.any [c]) = parens inAll c := by
  rw [parens]

theorem parens_any {inAll : Bool} {c d : Criteria α} {rest : List (Criteria α)} :
    parens inAll (.any (c :: d :: rest))
      = parensOf false (c :: d :: rest) + if inAll then 1 else 0 := by
  rw [parens]
  · simp only [parensOf]
  · intro h
    cases h

/-- Inside an `all` a tree needs one more pair of parentheses at most. -/
theorem parens_true_le (c : Criteria α) : parens false c ≤ parens true c ∧
    parens true c ≤ parens false c + 1 := by
  induction c using cases_of_text with
  | leaf a => simp [parens]
  | allNil => simp [parens]
  | anyNil => simp [parens]
  | all c rest _ => simp [parens_all]
  | anyOne c ih => rwa [parens_any_one, parens_any_one]
  | any c d rest _ => simp [parens_any]

/-- What the text form needs of a tree: spellable conditions, and no more groups in parentheses
inside one another than may be read. -/
structure Writable (c : Criteria Condition) : Prop where
  leaves : ∀ k ∈ c.leaves, Spellable k
  parens : parens false c ≤ maxNesting

/-! ## Parts in a row -/

section Rows

variable {operator : List Char → List Char → Prop} {part : Form (Criteria α)}

/-- One part or more, each but the first after an operator. -/
def Row (operator : List Char → List Char → Prop) (part : Form (Criteria α)) :
    Form (List (Criteria α)) :=
  fun s as r => ∃ a rest t, as = a :: rest ∧ part s a t ∧ Operands operator part t rest r

theorem row_one {s r : List Char} {a : Criteria α} (h : part s a r) :
    Row operator part s [a] r :=
  ⟨a, [], r, rfl, h, .none⟩

theorem operands_append {s t r : List Char} {as bs : List (Criteria α)}
    (h : Operands operator part s as t) (more : Operands operator part t bs r) :
    Operands operator part s (as ++ bs) r := by
  induction h with
  | none => exact more
  | part isOperator isPart _ ih => exact .part isOperator isPart (ih more)

/-- Two rows with an operator between them are one row. -/
theorem Row.append {s t u r : List Char} {as bs : List (Criteria α)}
    (h : Row operator part s as t) (between : operator t u) (more : Row operator part u bs r) :
    Row operator part s (as ++ bs) r := by
  obtain ⟨a, as, v, rfl, first, rest⟩ := h
  obtain ⟨b, bs, w, rfl, second, last⟩ := more
  exact ⟨a, as ++ b :: bs, v, rfl, first, operands_append rest (.part between second last)⟩

/-- A row is a chain of its group. -/
theorem Row.chain {group : List (Criteria α) → Criteria α} {s r : List Char}
    {as : List (Criteria α)} (h : Row operator part s as r) :
    Chain operator part group s (gather group as) r := by
  obtain ⟨a, rest, t, rfl, first, more⟩ := h
  cases rest with
  | nil =>
    cases more
    exact .one first
  | cons b rest => exact .several first more

/-- A part that may stand after a blank. -/
def Leads (part : Form (Criteria α)) : Prop := ∀ s a r, part s a r → part (' ' :: s) a r

theorem Row.lead (leads : Leads part) {s r : List Char} {as : List (Criteria α)}
    (h : Row operator part s as r) : Row operator part (' ' :: s) as r := by
  obtain ⟨a, rest, t, rfl, first, more⟩ := h
  exact ⟨a, rest, t, rfl, leads _ _ _ first, more⟩

/-- The children of a group with an operator between them are a row of all their parts. -/
theorem row_children {leaf : α → List Char} {inAll : Bool} {separator : String}
    (leads : Leads part) (between : ∀ s, operator (separator.toList ++ s) (' ' :: s))
    {c : Criteria α} {rest : List (Criteria α)}
    (each : ∀ d ∈ c :: rest, ∀ r,
      Row operator part (write leaf inAll d ++ r) (parts inAll d) r) (r : List Char) :
    Row operator part (write leaf inAll c ++ writeRest leaf separator inAll rest ++ r)
      ((c :: rest).flatMap (parts inAll)) r := by
  induction rest generalizing c with
  | nil => simpa [writeRest] using each c (by simp) r
  | cons d rest ih =>
    have later := ih fun e (he : e ∈ d :: rest) => each e (List.mem_cons_of_mem c he)
    have whole := (each c (by simp) _).append (between _) (later.lead leads)
    rw [List.flatMap_cons]
    simpa [writeRest] using whole

end Rows

/-! ## A printed tree -/

/-- What may stand in parentheses: within no budget nothing at all. -/
def Inner : Nat → Form (Criteria Condition)
  | 0 => fun _ _ _ => False
  | n + 1 => Expr n

theorem expr_eq (n : Nat) : Expr n = Disjunction (Inner n) := by
  cases n <;> rfl

theorem leads_primary (inner : Form (Criteria Condition)) : Leads (Primary inner) := by
  intro s c r h
  cases h with
  | group opened inside closed => exact .group (.blank rfl opened) inside closed
  | empty blanks empty => exact .empty (.blank rfl blanks) empty
  | call blanks call => exact .call (.blank rfl blanks) call

theorem leads_chain {operator : List Char → List Char → Prop} {part : Form (Criteria α)}
    (leads : Leads part) (group : List (Criteria α) → Criteria α) :
    Leads (Chain operator part group) := by
  intro s c r h
  cases h with
  | one isPart => exact .one (leads _ _ _ isPart)
  | several isPart more => exact .several (leads _ _ _ isPart) more

theorem operator_and (s : List Char) :
    Operator "and" "AND" (" and ".toList ++ s) (' ' :: s) :=
  .lower (.blank rfl .done) fun _ _ first => by cases first; rfl

theorem operator_or (s : List Char) : Operator "or" "OR" (" or ".toList ++ s) (' ' :: s) :=
  .lower (.blank rfl .done) fun _ _ first => by cases first; rfl

theorem write_any {leaf : α → List Char} {inAll : Bool} {c d : Criteria α}
    {rest : List (Criteria α)} : write leaf inAll (.any (c :: d :: rest))
      = if inAll then
          '(' :: (write leaf false c ++ writeRest leaf " or " false (d :: rest)) ++ [')']
        else write leaf false c ++ writeRest leaf " or " false (d :: rest) := by
  rw [write]
  intro h
  cases h

/-- The text of a tree inside an `all` is a row of conjuncts, and its other text a row of
chains of them. -/
def Spelt (n : Nat) (c : Criteria Condition) : Prop := ∀ r,
  (parens true c ≤ n → Row (Operator "and" "AND") (Primary (Inner n))
    (write Condition.write true c ++ r) (parts true c) r) ∧
  (parens false c ≤ n →
    Row (Operator "or" "OR") (Chain (Operator "and" "AND") (Primary (Inner n)) .all)
      (write Condition.write false c ++ r) (parts false c) r)

/-- Where a text is the same inside an `all` and elsewhere, its conjuncts are one chain. -/
theorem spelt_of_conjuncts {n : Nat} {c : Criteria Condition}
    (text : write Condition.write false c = write Condition.write true c)
    (one : parts false c = [gather .all (parts true c)])
    (same : parens false c = parens true c)
    (row : ∀ r, parens true c ≤ n → Row (Operator "and" "AND") (Primary (Inner n))
      (write Condition.write true c ++ r) (parts true c) r) : Spelt n c := by
  intro r
  refine ⟨row r, fun enough => ?_⟩
  rw [text, one]
  exact row_one (row r (same ▸ enough)).chain

theorem spelt (c : Criteria Condition) (spellable : ∀ k ∈ c.leaves, Spellable k) :
    ∀ n, Spelt n c := by
  induction c using cases_of_text with
  | leaf k =>
    intro n
    refine spelt_of_conjuncts (by rw [write, write]) (by rw [parts_leaf, parts_leaf]; rfl)
      (by rw [parens, parens]) fun r _ => ?_
    rw [write, parts_leaf]
    exact row_one (.call .done (call_write (spellable k (by simp [leaves])) r))
  | allNil =>
    intro n
    refine spelt_of_conjuncts (by rw [write, write]) (by rw [parts_all_nil, parts_all_nil]; rfl)
      (by rw [parens, parens]) fun r _ => ?_
    rw [write, parts_all_nil]
    exact row_one (.empty .done (.all .done .done))
  | anyNil =>
    intro n
    refine spelt_of_conjuncts (by rw [write, write]) (by rw [parts_any_nil, parts_any_nil]; rfl)
      (by rw [parens, parens]) fun r _ => ?_
    rw [write, parts_any_nil]
    exact row_one (.empty .done (.any .done .done))
  | all c rest ih =>
    intro n
    have children : ∀ d ∈ c :: rest, ∀ n, Spelt n d := fun d hd => ih d hd fun k hk =>
      spellable k (by rw [leaves_all]; exact List.mem_flatMap.2 ⟨d, hd, hk⟩)
    refine spelt_of_conjuncts (by rw [write, write]) (by rw [parts_all, parts_all]; rfl)
      (by rw [parens_all, parens_all]) fun r enough => ?_
    rw [parens_all, parensOf_le] at enough
    rw [write, parts_all, if_pos rfl]
    exact row_children (leads_primary _) operator_and
      (fun d hd r => (children d hd n r).1 (enough d hd)) r
  | anyOne c ih =>
    intro n r
    have child := ih (fun k hk => spellable k (by simpa [leaves_any] using hk)) n r
    rwa [parts_any_one, parts_any_one, parens_any_one, parens_any_one, write, write]
  | any c d rest ih =>
    have children : ∀ e ∈ c :: d :: rest, ∀ n, Spelt n e := fun e he => ih e he fun k hk =>
      spellable k (by rw [leaves_any]; exact List.mem_flatMap.2 ⟨e, he, hk⟩)
    have row (n : Nat) (enough : parensOf false (c :: d :: rest) ≤ n) (r : List Char) :=
      row_children (leads_chain (leads_primary (Inner n)) .all) operator_or
        (fun e he r => (children e he n r).2 (parensOf_le.1 enough e he)) r
    intro n r
    rw [write_any, write_any, parts_any, parts_any, if_pos rfl, if_pos rfl, if_neg (by decide),
      if_neg (by decide), parens_any, parens_any, if_pos rfl, if_neg (by decide)]
    refine ⟨fun enough => ?_, fun enough => row n enough r⟩
    obtain ⟨n, rfl⟩ := Nat.exists_eq_succ_of_ne_zero (Nat.ne_zero_of_lt enough)
    have inner : Disjunction (Inner n) _ _ (')' :: r) :=
      (row n (Nat.le_of_succ_le_succ enough) (')' :: r)).chain
    rw [← expr_eq] at inner
    apply row_one
    have group : Primary (Inner (n + 1)) _ _ r := .group .done inner .done
    simpa using group

/-- The text of a tree spells what the text form keeps of it. -/
theorem Writable.spells {c : Criteria Condition} (writable : Writable c) :
    Spells (write Condition.write false c) (asText c) := by
  have row := (spelt c writable.leaves maxNesting []).2 writable.parens
  rw [List.append_nil] at row
  refine ⟨[], ?_, .done⟩
  rw [expr_eq]
  exact row.chain

theorem toList_toString (c : Criteria Condition) :
    (toString c).toList = write Condition.write false c := by
  have leaf : (fun k : Condition => (toString k).toList) = Condition.write :=
    funext fun k => String.toList_ofList
  have whole : (toString c).toList
      = write (fun k : Condition => (toString k).toList) false c := String.toList_ofList
  rw [whole, leaf]

/-! ## A tree that was read -/

/-- What a form of the grammar gives can be printed again, and opens at most `n` groups in
parentheses where it stands. -/
def Reprints (inAll : Bool) (n : Nat) (form : Form (Criteria Condition)) : Prop :=
  ∀ s c r, form s c r → (∀ k ∈ c.leaves, Spellable k) ∧ parens inAll c ≤ n

theorem Call.spellable {s r : List Char} {k : Condition} (h : Call s k r) : Spellable k := by
  cases h with
  | mk isName same _ enclosed =>
    refine ⟨same ▸ isName, ?_⟩
    exact enclosed.forall_mem fun _ _ _ isLiteral => isLiteral.canonical.2

theorem reprints_primary (n : Nat) (inner : ∀ m, n = m + 1 → Reprints false m (Expr m)) :
    Reprints true n (Primary (Inner n)) := by
  intro s c r h
  cases h with
  | group _ inside _ =>
    cases n with
    | zero => exact inside.elim
    | succ n =>
      obtain ⟨spellable, enough⟩ := inner n rfl _ _ _ inside
      exact ⟨spellable, Nat.le_trans (parens_true_le c).2 (Nat.succ_le_succ enough)⟩
  | empty _ empty => cases empty <;> simp [leaves, leavesOf, parens]
  | call _ call => simpa [leaves, parens] using Call.spellable call

/-- The children of a group of parts, and the leaves of all of them. -/
theorem reprints_several {operator : List Char → List Char → Prop}
    {part : Form (Criteria Condition)} {inAll : Bool} {n : Nat} (parts : Reprints inAll n part)
    {s t r : List Char} {c : Criteria Condition} {cs : List (Criteria Condition)}
    (first : part s c t) (more : Operands operator part t cs r) :
    (∀ k ∈ (c :: cs).flatMap leaves, Spellable k) ∧ parensOf inAll (c :: cs) ≤ n := by
  have each := more.forall_mem parts first
  refine ⟨fun k hk => ?_, parensOf_le.2 fun d hd => (each d hd).2⟩
  obtain ⟨d, hd, hk⟩ := List.mem_flatMap.1 hk
  exact (each d hd).1 k hk

theorem reprints_conjunction {n : Nat} {part : Form (Criteria Condition)}
    (parts : Reprints true n part) :
    Reprints false n (Chain (Operator "and" "AND") part .all) := by
  intro s c r h
  cases h with
  | one isPart =>
    obtain ⟨spellable, enough⟩ := parts _ _ _ isPart
    exact ⟨spellable, Nat.le_trans (parens_true_le c).1 enough⟩
  | several isPart more =>
    rw [leaves_all, parens_all]
    exact reprints_several parts isPart more

theorem reprints_disjunction {n : Nat} {part : Form (Criteria Condition)}
    (parts : Reprints false n part) :
    Reprints false n (Chain (Operator "or" "OR") part .any) := by
  intro s c r h
  cases h with
  | one isPart => exact parts _ _ _ isPart
  | several isPart more =>
    rw [leaves_any, parens_any, if_neg (by decide)]
    exact reprints_several parts isPart more

theorem reprints_expr (n : Nat) : Reprints false n (Expr n) := by
  induction n with
  | zero =>
    rw [expr_eq]
    exact reprints_disjunction (reprints_conjunction (reprints_primary 0 fun m h => by cases h))
  | succ n ih =>
    rw [expr_eq]
    refine reprints_disjunction (reprints_conjunction (reprints_primary (n + 1) fun m h => ?_))
    cases h
    exact ih

/-- Each tree that a text spells can be printed and read again. -/
theorem writable_of_spells {s : List Char} {c : Criteria Condition} (h : Spells s c) :
    Writable c := by
  obtain ⟨r, whole, _⟩ := h
  obtain ⟨spellable, enough⟩ := reprints_expr maxNesting _ _ _ whole
  exact ⟨spellable, enough⟩

/-! ## Printing and reading again -/

theorem ofText_toString {c : Criteria Condition} (writable : Writable c) :
    ofText (toString c) = .ok (asText c) := by
  unfold ofText
  rw [toList_toString, expression_complete writable.spells]

/-- A writable tree that is printed and read again has the same leaves in the same order, and no
decision tells the two apart, neither by its outcome nor by the leaves it asks about; a tidy one
is the same tree. Each tree that was read is writable, so its text can be read again. -/
theorem printing_keeps_meaning :
    (∀ c : Criteria Condition, Writable c → ∃ d, ofText (toString c) = .ok d ∧
      d.leaves = c.leaves ∧
      (∀ (ε : Type) (decide : Condition → Except ε Bool),
        d.tryEvaluate decide = c.tryEvaluate decide ∧ d.walk decide = c.walk decide) ∧
      (Tidy c → d = c)) ∧
    ∀ (text : String) (c : Criteria Condition), ofText text = .ok c →
      Writable c ∧ ∃ d, ofText (toString c) = .ok d := by
  constructor
  · intro c writable
    refine ⟨asText c, ofText_toString writable, flatten.leaves_run c, fun ε decide => ?_,
      Tidy.asText_eq⟩
    exact ⟨flatten.tryEvaluate_run decide c, flatten.walk_run decide c⟩
  · intro text c h
    unfold ofText at h
    split at h
    · next whole =>
      cases h
      have writable := writable_of_spells (expression_sound whole)
      exact ⟨writable, asText c, ofText_toString writable⟩
    · cases h

/-- A tidy tree with a list, an escaped text and an empty group is the same tree again. With groups
of one around its parts it is not, but no decision tells the two apart. -/
theorem a_mixed_tree_reads_back : ∃ k l : Condition,
    let tidy : Criteria Condition := .all [.leaf k, .any [.leaf l, .all []]]
    let untidy : Criteria Condition := .any [.all [.any [tidy], .all [.leaf l]]]
    let read : Criteria Condition := .all [.leaf k, .any [.leaf l, .all []], .leaf l]
    Writable tidy ∧ Tidy tidy ∧
    toString tidy = "KIND([\"component\",-1]) and (OWNER(\"a \\\"b\\\"\") or all())" ∧
    ofText (toString tidy) = .ok tidy ∧
    Writable untidy ∧ ofText (toString untidy) = .ok read ∧ read.leaves = untidy.leaves ∧
    ∀ (ε : Type) (decide : Condition → Except ε Bool), read.walk decide = untidy.walk decide := by
  let k : Condition := ⟨"KIND", [.arr [.str "component", .num (.int (-1) (by decide))]], rfl,
    by simp [Json.Value.Canonical, Json.Value.CanonicalItems]⟩
  let l : Condition := ⟨"OWNER", [.str "a \"b\""], rfl, by simp [Json.Value.Canonical]⟩
  let tidy : Criteria Condition := .all [.leaf k, .any [.leaf l, .all []]]
  let untidy : Criteria Condition := .any [.all [.any [tidy], .all [.leaf l]]]
  have kind : Spellable k := by
    have isName : Name "KIND".toList := .mk rfl (List.all_eq_true.1 rfl)
    exact ⟨isName, List.forall_mem_singleton.2 (by decide)⟩
  have owner : Spellable l := by
    have isName : Name "OWNER".toList := .mk rfl (List.all_eq_true.1 rfl)
    exact ⟨isName, List.forall_mem_singleton.2 (by decide)⟩
  have writable : Writable tidy :=
    ⟨by simp [tidy, leaves, leavesOf, kind, owner], by decide⟩
  have empty : Tidy (.all [] : Criteria Condition) := .all (by decide) (by simp) (by simp)
  have inner : Tidy (.any [.leaf l, .all []]) := .any (by decide)
    (List.forall_mem_cons.2 ⟨.leaf l, List.forall_mem_singleton.2 empty⟩) (by simp)
  have isTidy : Tidy tidy := .all (by decide)
    (List.forall_mem_cons.2 ⟨.leaf k, List.forall_mem_singleton.2 inner⟩) (by simp)
  have text : toString tidy
      = "KIND([\"component\",-1]) and (OWNER(\"a \\\"b\\\"\") or all())" := by
    decide
  have kept : asText untidy = .all [.leaf k, .any [.leaf l, .all []], .leaf l] := rfl
  obtain ⟨d, read, -, -, same⟩ := printing_keeps_meaning.1 tidy writable
  rw [same isTidy] at read
  have again : Writable untidy :=
    ⟨by simp [untidy, tidy, leaves, leavesOf, kind, owner], by decide⟩
  obtain ⟨e, readAgain, sameLeaves, sameWalk, -⟩ := printing_keeps_meaning.1 untidy again
  obtain rfl := Except.ok.inj (readAgain.symm.trans (ofText_toString again))
  rw [kept] at readAgain sameLeaves sameWalk
  exact ⟨k, l, writable, isTidy, text, read, again, readAgain, sameLeaves,
    fun ε decide => (sameWalk ε decide).2⟩

end Permit.Criteria
