-- Conditions, groups and chains, and with them whole texts: what is read are the texts of the
-- grammar, each with its tree.
import Permit.Expression.Diagnostic
import Permit.Proofs.Grammar.Literals

namespace Permit.Expression.Grammar

open Json

/-! ## Conditions -/

theorem of_eq (k : Condition) : Condition.of k.rule k.params = .ok k := by
  have same := Value.normalizeItems_of_canonical k.params (Value.canonicalItems_iff.2 k.canonical)
  unfold Condition.of
  rw [dif_pos k.permitted]
  congr

theorem of_ok {rule : String} {params : List Value} {k : Condition}
    (h : Condition.of rule params = .ok k) (canonical : ∀ v ∈ params, v.Canonical) :
    k.rule = rule ∧ k.params = params := by
  unfold Condition.of at h
  split at h
  · cases h
    exact ⟨rfl, Value.normalizeItems_of_canonical params (Value.canonicalItems_iff.2 canonical)⟩
  · cases h

/-- The name is over where blanks and a parenthesis follow. -/
theorem Blanks.noNameChar {s t : List Char} (h : Blanks s ('(' :: t)) : NoNameChar s := by
  obtain ⟨d, u, rfl, head⟩ := h.head
  intro c v first
  cases first
  have : d = ' ' ∨ d = '\t' ∨ d = '\n' ∨ d = '\x0c' ∨ d = '\r' ∨ d = '#' ∨ d = '(' := by
    unfold isBlank at head
    simpa [or_assoc] using head
  rcases this with rfl | rfl | rfl | rfl | rfl | rfl | rfl <;> decide

theorem condition_sound : Sound condition Call := by
  intro s k r h
  unfold condition at h
  split at h
  · cases h
  next ruleName rest isName =>
  obtain ⟨spelt, rfl⟩ := name_sound isName
  split at h
  · cases h
  split at h
  · cases h
  next opens =>
  unfold openParams at opens
  split at opens
  · cases opens
  next isOpen =>
  cases opens
  split at h
  · cases h
  next isParams =>
  split at h
  · cases h
  next ends =>
  split at h
  · next of =>
    cases h
    rw [expecting_ok] at ends
    have opened := blanks_of_commit_char (commit_ok.2 isOpen)
    have enclosed := enclosed_sound (literal_sound _) isParams ends
    obtain ⟨rule, same⟩ := of_ok of
      (enclosed.forall_mem fun _ _ _ h => h.canonical.1)
    rw [← same] at enclosed
    exact .mk spelt (by rw [rule, String.toList_ofList]) opened enclosed
  · cases h

theorem condition_complete {s r : List Char} {k : Condition} (h : Call s k r) :
    condition s = .ok (k, r) := by
  cases h with
  | @mk name s t k r isName same opened enclosed =>
    have rule : String.ofList name = k.rule := by rw [same, String.ofList_toList]
    have opens : openParams s = .ok ((), skipBlanks t) := by
      rw [openParams, char_ok (x := ()).2 (skipBlanks_cons opened rfl (by decide))]
    obtain ⟨u, params, ends⟩ := enclosed_complete (readable_literal _) (.inr (.inr rfl)) enclosed
    have closed : (closing ')' u).expecting .closingParenthesis = .ok ((), r) :=
      expecting_ok.2 ends
    rw [condition, name_complete isName opened.noNameChar]
    simp only [rule, k.permitted, opens, params, closed, of_eq]
    rfl

/-! ## Empty groups -/

theorem emptyParens?_iff {s r : List Char} :
    emptyParens? s = some r ↔ ∃ t, Blanks s ('(' :: t) ∧ Blanks t (')' :: r) := by
  constructor
  · intro h
    unfold emptyParens? at h
    have before := blanks_skipBlanks s
    split at h
    · next t opened =>
      rw [opened] at before
      have inside := blanks_skipBlanks t
      split at h
      · next closed =>
        cases h
        rw [closed] at inside
        exact ⟨t, before, inside⟩
      · cases h
    · cases h
  · rintro ⟨t, opened, closed⟩
    rw [emptyParens?, skipBlanks_cons opened rfl (by decide)]
    simp only [skipBlanks_cons closed rfl (by decide)]

theorem emptyGroup?_sound {s r : List Char} {c : Criteria Condition}
    (h : emptyGroup? s = some (c, r)) : EmptyGroup s c r := by
  unfold emptyGroup? at h
  split at h
  · next found =>
    cases h
    obtain ⟨t, word, parens⟩ := Option.bind_eq_some_iff.1 found
    obtain ⟨u, opened, closed⟩ := emptyParens?_iff.1 parens
    rw [word?_eq_some.1 word]
    exact .all opened closed
  · obtain ⟨after, found, same⟩ := Option.map_eq_some_iff.1 h
    cases same
    obtain ⟨t, word, parens⟩ := Option.bind_eq_some_iff.1 found
    obtain ⟨u, opened, closed⟩ := emptyParens?_iff.1 parens
    rw [word?_eq_some.1 word]
    exact .any opened closed

theorem emptyGroup?_complete {s r : List Char} {c : Criteria Condition} (h : EmptyGroup s c r) :
    emptyGroup? s = some (c, r) := by
  cases h with
  | @all s t r opened closed =>
    have parens := emptyParens?_iff.2 ⟨t, opened, closed⟩
    have word : word? "all".toList ("all".toList ++ s) = some s := word?_eq_some.2 rfl
    rw [emptyGroup?, word, Option.bind_some, parens]
  | @any s t r opened closed =>
    have parens := emptyParens?_iff.2 ⟨t, opened, closed⟩
    have word : word? "any".toList ("any".toList ++ s) = some s := word?_eq_some.2 rfl
    have other : word? "all".toList ("any".toList ++ s) = none := rfl
    rw [emptyGroup?, word, other, Option.bind_none, Option.bind_some, parens]
    rfl

/-- A name that only starts with the word of an empty group is no empty group. -/
theorem emptyParens?_none {word name s t : List Char} (isName : Name name) (other : name ≠ word)
    (opened : Blanks s ('(' :: t)) (letters : word.all isNameChar = true) :
    (word? word (name ++ s)).bind emptyParens? = none := by
  rcases found : word? word (name ++ s) with _ | rest
  · rfl
  rcases List.append_eq_append_iff.1 (word?_eq_some.1 found) with
    ⟨more, rfl, rfl⟩ | ⟨more, rfl, rfl⟩
  · cases more with
    | nil => exact absurd (List.append_nil name).symm other
    | cons c more =>
      have isChar := List.all_eq_true.1 letters c (by simp)
      rw [opened.noNameChar c _ rfl] at isChar
      cases isChar
  · cases more with
    | nil => exact absurd (List.append_nil word) other
    | cons c more =>
      have isChar := isName.forall_mem c (by simp)
      rw [Option.bind_some, emptyParens?, List.cons_append,
        skipBlanks_eq .done (nameChar_noBlank isChar)]
      split
      · next heq => exact absurd (List.cons.inj heq).1 (nameChar_apart isChar rfl)
      · rfl

/-- The words of empty groups are kept from conditions. -/
theorem emptyGroup?_named {name s t : List Char} {k : Condition} (isName : Name name)
    (same : name = k.rule.toList) (opened : Blanks s ('(' :: t)) :
    emptyGroup? (name ++ s) = none := by
  have permitted := k.permitted
  simp only [isReserved, Bool.or_eq_false_iff, beq_eq_false_iff_ne] at permitted
  have apart : ∀ word : String, k.rule ≠ word → name ≠ word.toList := by
    intro word other
    rw [same]
    exact fun h => other (String.toList_injective h)
  rw [emptyGroup?, emptyParens?_none isName (apart _ permitted.1) opened rfl,
    emptyParens?_none isName (apart _ permitted.2) opened rfl]
  rfl

theorem emptyGroup?_call {s r : List Char} {k : Condition} (h : Call s k r) :
    emptyGroup? s = none := by
  cases h with
  | mk isName same opened _ => exact emptyGroup?_named isName same opened

/-! ## Operators -/

/-- What an operator needs of its two words: neither starts with a blank, and the upper one
does not start with the lower one. -/
structure Keyword (lower upper : String) : Prop where
  lowerStart : ∀ s, NoBlank (lower.toList ++ s)
  upperStart : ∀ s, NoBlank (upper.toList ++ s)
  apart : ∀ s, word? lower.toList (upper.toList ++ s) = none
  lowerLength : lower.toList ≠ []
  upperLength : upper.toList ≠ []

theorem keyword_and : Keyword "and" "AND" where
  lowerStart _ := noBlank_cons rfl (by decide)
  upperStart _ := noBlank_cons rfl (by decide)
  apart _ := rfl
  lowerLength := by decide
  upperLength := by decide

theorem keyword_or : Keyword "or" "OR" where
  lowerStart _ := noBlank_cons rfl (by decide)
  upperStart _ := noBlank_cons rfl (by decide)
  apart _ := rfl
  lowerLength := by decide
  upperLength := by decide

/-- An operator is one of its words, and no name goes on after it. -/
theorem operator?_eq {lower upper : String} {s r : List Char} :
    operator? lower upper s = some r ↔
      (word? lower.toList (skipBlanks s)).or (word? upper.toList (skipBlanks s)) = some r ∧
        NoNameChar r := by
  unfold operator?
  dsimp only
  generalize (word? lower.toList (skipBlanks s)).or (word? upper.toList (skipBlanks s)) = found
  rcases found with _ | _ | ⟨c, rest⟩
  · simp
  · constructor
    · intro h
      cases h
      exact ⟨rfl, fun _ _ first => by cases first⟩
    · exact fun h => h.1
  · dsimp only
    split
    · next isChar =>
      constructor
      · intro h
        cases h
      · rintro ⟨h, ends⟩
        cases h
        rw [ends c rest rfl] at isChar
        cases isChar
    · next isChar =>
      constructor
      · intro h
        cases h
        refine ⟨rfl, fun d t first => ?_⟩
        cases first
        exact Bool.eq_false_iff.2 isChar
      · exact fun h => h.1

theorem operator?_sound {lower upper : String} {s r : List Char}
    (h : operator? lower upper s = some r) : Operator lower upper s r := by
  obtain ⟨found, ends⟩ := operator?_eq.1 h
  have blanks := blanks_skipBlanks s
  rcases Option.or_eq_some_iff.1 found with word | ⟨_, word⟩
  · rw [word?_eq_some.1 word] at blanks
    exact .lower blanks ends
  · rw [word?_eq_some.1 word] at blanks
    exact .upper blanks ends

theorem operator?_complete {lower upper : String} (keyword : Keyword lower upper)
    {s r : List Char} (h : Operator lower upper s r) : operator? lower upper s = some r := by
  rw [operator?_eq]
  cases h with
  | lower blanks ends =>
    rw [skipBlanks_eq blanks (keyword.lowerStart r), word?_eq_some.2 rfl]
    exact ⟨rfl, ends⟩
  | upper blanks ends =>
    rw [skipBlanks_eq blanks (keyword.upperStart r), keyword.apart r, word?_eq_some.2 rfl]
    exact ⟨rfl, ends⟩

theorem Operator.length_lt {lower upper : String} (keyword : Keyword lower upper)
    {s r : List Char} (h : Operator lower upper s r) : r.length < s.length := by
  cases h with
  | lower blanks _ =>
    have := blanks.length_le
    have := List.length_pos_iff.2 keyword.lowerLength
    rw [List.length_append] at *
    omega
  | upper blanks _ =>
    have := blanks.length_le
    have := List.length_pos_iff.2 keyword.upperLength
    rw [List.length_append] at *
    omega

/-! ## Chains -/

section Chains

variable {lower upper : String} {part : Form (Criteria Condition)}
  {read : List Char → Parsed (Criteria Condition)}

theorem operands_sound (sound : Sound read part) (fuel : Nat) :
    Sound (operands (operator? lower upper) read fuel) (Operands (Operator lower upper) part) := by
  induction fuel with
  | zero =>
    intro s as r h
    cases h
    exact .none
  | succ fuel ih =>
    intro s as r h
    rw [operands] at h
    split at h
    · cases h
      exact .none
    · next isOperator =>
      split at h
      · cases h
      · next isPart =>
        rw [commit_ok] at isPart
        obtain ⟨as, more, rfl⟩ := map_ok h
        exact .part (operator?_sound isOperator) (sound _ _ _ isPart) (ih _ _ _ more)

theorem chain_sound (sound : Sound read part)
    (group : List (Criteria Condition) → Criteria Condition) :
    Sound (chain group lower upper read) (Chain (Operator lower upper) part group) := by
  intro s c r h
  unfold chain at h
  split at h
  · cases h
  · next isFirst =>
    obtain ⟨as, more, rfl⟩ := map_ok h
    have more := operands_sound sound _ _ _ _ more
    cases as with
    | nil =>
      cases more
      exact .one (sound _ _ _ isFirst)
    | cons a as => exact .several (sound _ _ _ isFirst) more

theorem Operands.length_le (keyword : Keyword lower upper) (shrinks : Shrinks part)
    {s r : List Char} {as : List (Criteria Condition)}
    (h : Operands (Operator lower upper) part s as r) : as.length + r.length ≤ s.length := by
  induction h with
  | none => simp
  | part isOperator isPart _ ih =>
    have := isOperator.length_lt keyword
    have := shrinks _ _ _ isPart
    simp only [List.length_cons]
    omega

theorem operands_complete (keyword : Keyword lower upper) {ends : List Char → Prop}
    (complete : Complete ends read part) {s r : List Char} {as : List (Criteria Condition)}
    (h : Operands (Operator lower upper) part s as r)
    (between : ∀ s t, Operator lower upper s t → ends s) (last : ends r)
    (ended : operator? lower upper r = none) :
    ∀ fuel, as.length ≤ fuel → operands (operator? lower upper) read fuel s = .ok (as, r) := by
  induction h with
  | none =>
    intro fuel _
    cases fuel with
    | zero => rfl
    | succ fuel => rw [operands, ended]
  | part isOperator isPart more ih =>
    intro fuel enough
    obtain ⟨fuel, rfl⟩ := Nat.exists_eq_add_of_lt enough
    have here := complete _ _ _ isPart <| by
      cases more with
      | none => exact last
      | part next _ _ => exact between _ _ next
    rw [operands, operator?_complete keyword isOperator]
    dsimp only
    rw [commit_ok.2 here]
    dsimp only
    rw [ih last ended _ (by omega)]
    rfl

theorem Chain.length_le (keyword : Keyword lower upper) (shrinks : Shrinks part)
    {group : List (Criteria Condition) → Criteria Condition} :
    Shrinks (Chain (Operator lower upper) part group) := by
  intro s c r h
  cases h with
  | one isPart => exact shrinks _ _ _ isPart
  | several isPart more =>
    have := shrinks _ _ _ isPart
    have := more.length_le keyword shrinks
    omega

/-- A chain is read up to where no operator follows; between its parts stands an operator, and
after the last part what may stand after the chain. -/
theorem chain_complete (keyword : Keyword lower upper) (shrinks : Shrinks part)
    {ends : List Char → Prop} (complete : Complete ends read part)
    (between : ∀ s t, Operator lower upper s t → ends s)
    (group : List (Criteria Condition) → Criteria Condition) :
    Complete (fun r => ends r ∧ operator? lower upper r = none) (chain group lower upper read)
      (Chain (Operator lower upper) part group) := by
  rintro s c r h ⟨last, ended⟩
  cases h with
  | one isPart =>
    rw [chain, complete _ _ _ isPart last]
    dsimp only
    rw [operands_complete keyword complete .none between last ended _ (Nat.zero_le _)]
    rfl
  | several isPart more =>
    have here := complete _ _ _ isPart <| by
      cases more with
      | part next _ _ => exact between _ _ next
    have := shrinks _ _ _ isPart
    have := more.length_le keyword shrinks
    rw [chain, here]
    dsimp only
    rw [operands_complete keyword complete more between last ended _ (by omega)]
    rfl

end Chains

/-! ## Parts of chains -/

section Primary

variable {inner : Form (Criteria Condition)}
  {group : List Char → Parsed (Criteria Condition)}

theorem primary_sound
    (groups : ∀ t c r, group t = .ok (c, r) → ∃ u, inner t c u ∧ Blanks u (')' :: r)) :
    Sound (primary group) (Primary inner) := by
  intro s c r h
  unfold primary at h
  dsimp only at h
  rw [expecting_ok] at h
  have blanks := blanks_skipBlanks s
  split at h
  · next t opened =>
    rw [opened] at blanks
    obtain ⟨u, inside, closed⟩ := groups _ _ _ h
    exact .group blanks inside closed
  · split at h
    · next empty =>
      cases h
      exact .empty blanks (emptyGroup?_sound empty)
    · obtain ⟨k, call, rfl⟩ := map_ok h
      exact .call blanks (condition_sound _ _ _ call)

/-- Neither an empty group nor a condition starts with a blank or a parenthesis. -/
theorem Call.starts {s r : List Char} {k : Condition} (h : Call s k r) :
    ∃ c t, s = c :: t ∧ isNameChar c = true := by
  cases h with
  | mk isName _ _ _ =>
    have inside := isName.forall_mem
    cases isName with
    | mk _ _ => exact ⟨_, _, rfl, inside _ (by simp)⟩

theorem EmptyGroup.starts {s r : List Char} {c : Criteria Condition} (h : EmptyGroup s c r) :
    ∃ d t, s = d :: t ∧ isNameChar d = true := by
  cases h with
  | all _ _ => exact ⟨'a', _, rfl, by decide⟩
  | any _ _ => exact ⟨'a', _, rfl, by decide⟩

/-- Where a name starts, an empty group is tried before a condition. -/
theorem primary_name {s t : List Char} {c : Char} (blanks : Blanks s (c :: t))
    (isChar : isNameChar c = true) : primary group s
      = Parsed.expecting .condition (match emptyGroup? (c :: t) with
        | some r => .ok r
        | none => (condition (c :: t)).map .leaf) := by
  unfold primary
  rw [skipBlanks_eq blanks (nameChar_noBlank isChar)]
  dsimp only
  split
  · next heq => exact absurd (List.cons.inj heq).1 (nameChar_apart isChar rfl)
  · rfl

theorem primary_complete
    (groups : ∀ t c u r, inner t c u → Blanks u (')' :: r) → group t = .ok (c, r)) :
    Complete (fun _ => True) (primary group) (Primary inner) := by
  intro s c r h _
  cases h with
  | group opened inside closed =>
    rw [primary, expecting_ok, skipBlanks_cons opened rfl (by decide)]
    exact groups _ _ _ _ inside closed
  | empty blanks empty =>
    obtain ⟨d, t, rfl, isChar⟩ := empty.starts
    rw [primary_name blanks isChar, emptyGroup?_complete empty]
    rfl
  | call blanks call =>
    obtain ⟨d, t, rfl, isChar⟩ := call.starts
    rw [primary_name blanks isChar, emptyGroup?_call call, condition_complete call]
    rfl

theorem primary_shrinks (shrinks : Shrinks inner) : Shrinks (Primary inner) := by
  intro s c r h
  cases h with
  | group opened inside closed =>
    have := opened.length_le
    have := shrinks _ _ _ inside
    have := closed.length_le
    simp only [List.length_cons] at *
    omega
  | empty blanks empty =>
    have := blanks.length_le
    cases empty with
    | all opened closed =>
      have := opened.length_le
      have := closed.length_le
      simp only [List.length_cons, List.length_append] at *
      omega
    | any opened closed =>
      have := opened.length_le
      have := closed.length_le
      simp only [List.length_cons, List.length_append] at *
      omega
  | call blanks call =>
    have := blanks.length_le
    cases call with
    | mk _ _ opened enclosed =>
      have := opened.length_le
      have := enclosed.length_lt (readable_literal _).shrinks
      simp only [List.length_cons, List.length_append] at *
      omega

end Primary

/-! ## More nesting -/

section Monotone

variable {operator : List Char → List Char → Prop} {part other : Form (Criteria Condition)}

theorem Operands.imp (each : ∀ s c r, part s c r → other s c r) {s r : List Char}
    {cs : List (Criteria Condition)} (h : Operands operator part s cs r) :
    Operands operator other s cs r := by
  induction h with
  | none => exact .none
  | part isOperator isPart _ ih => exact .part isOperator (each _ _ _ isPart) ih

theorem Chain.imp (each : ∀ s c r, part s c r → other s c r)
    {group : List (Criteria Condition) → Criteria Condition} :
    ∀ s c r, Chain operator part group s c r → Chain operator other group s c r := by
  intro s c r h
  cases h with
  | one isPart => exact .one (each _ _ _ isPart)
  | several isPart more => exact .several (each _ _ _ isPart) (more.imp each)

/-- What holds of each part holds of all parts of a chain. -/
theorem Operands.forall_mem {P : Criteria Condition → Prop} (each : ∀ s c r, part s c r → P c)
    {s t r : List Char} {c : Criteria Condition} {cs : List (Criteria Condition)}
    (first : part s c t) (more : Operands operator part t cs r) : ∀ d ∈ c :: cs, P d := by
  induction more generalizing s c with
  | none => simpa using each _ _ _ first
  | part _ isPart _ ih =>
    intro d hd
    rcases List.mem_cons.1 hd with rfl | hd
    · exact each _ _ _ first
    · exact ih isPart d hd

end Monotone

theorem Disjunction.imp {inner other : Form (Criteria Condition)}
    (each : ∀ s c r, inner s c r → other s c r) :
    ∀ s c r, Disjunction inner s c r → Disjunction other s c r := by
  refine Chain.imp (Chain.imp fun s c r h => ?_)
  cases h with
  | group opened inside closed => exact .group opened (each _ _ _ inside) closed
  | empty blanks empty => exact .empty blanks empty
  | call blanks call => exact .call blanks call

/-- What nests within a budget nests within a larger one. -/
theorem Expr.mono {n m : Nat} (h : n ≤ m) : ∀ s c r, Expr n s c r → Expr m s c r := by
  induction n generalizing m with
  | zero =>
    cases m with
    | zero => exact fun _ _ _ => id
    | succ m => exact Disjunction.imp fun _ _ _ => False.elim
  | succ n ih =>
    obtain ⟨m, rfl⟩ := Nat.exists_eq_add_of_lt h
    exact Disjunction.imp (ih (by omega))

/-! ## Whole texts -/

/-- An expression is over: neither operator follows. -/
def Over (s : List Char) : Prop :=
  operator? "and" "AND" s = none ∧ operator? "or" "OR" s = none

theorem over_of_blanks {s t : List Char} (h : Blanks s t) (ends : t = [] ∨ ∃ u, t = ')' :: u) :
    Over s := by
  have start : skipBlanks s = t := by
    apply skipBlanks_eq h
    rcases ends with rfl | ⟨u, rfl⟩
    · exact noBlank_nil
    · exact noBlank_cons rfl (by decide)
  unfold Over operator?
  rw [start]
  rcases ends with rfl | ⟨u, rfl⟩ <;> exact ⟨rfl, rfl⟩

/-- Where `or` stands, no `and` stands. -/
theorem operator?_and_of_or {s t : List Char} (h : Operator "or" "OR" s t) :
    operator? "and" "AND" s = none := by
  unfold operator?
  cases h with
  | lower blanks _ =>
    rw [skipBlanks_eq blanks (keyword_or.lowerStart t)]
    rfl
  | upper blanks _ =>
    rw [skipBlanks_eq blanks (keyword_or.upperStart t)]
    rfl

section Disjunction

variable {inner : Form (Criteria Condition)}
  {group : List Char → Parsed (Criteria Condition)}

theorem disjunction_sound
    (groups : ∀ t c r, group t = .ok (c, r) → ∃ u, inner t c u ∧ Blanks u (')' :: r)) :
    Sound (chain .any "or" "OR" (chain .all "and" "AND" (primary group))) (Disjunction inner) :=
  chain_sound (chain_sound (primary_sound groups) .all) .any

theorem disjunction_complete (shrinks : Shrinks inner)
    (groups : ∀ t c u r, inner t c u → Blanks u (')' :: r) → group t = .ok (c, r)) :
    Complete Over (chain .any "or" "OR" (chain .all "and" "AND" (primary group)))
      (Disjunction inner) := by
  have parts := chain_complete keyword_and (primary_shrinks shrinks) (primary_complete groups)
    (fun _ _ _ => trivial) .all
  have whole := chain_complete keyword_or
    (Chain.length_le keyword_and (primary_shrinks shrinks)) parts
    (fun _ _ isOr => ⟨trivial, operator?_and_of_or isOr⟩) .any
  exact fun s c r h ended => whole s c r h ⟨⟨trivial, ended.1⟩, ended.2⟩

theorem disjunction_shrinks (shrinks : Shrinks inner) : Shrinks (Disjunction inner) :=
  Chain.length_le keyword_or (Chain.length_le keyword_and (primary_shrinks shrinks))

end Disjunction

theorem tooDeep_ne_ok {α : Type} {t r : List Char} {a : α} : tooDeep t ≠ .ok (a, r) := by
  intro h
  cases h

/-- What is read is an expression of the grammar, within the budget for its groups. -/
theorem orChain_sound (n : Nat) : Sound (orChain n) (Expr n) := by
  induction n with
  | zero => exact disjunction_sound fun _ _ _ h => absurd h tooDeep_ne_ok
  | succ n ih =>
    refine disjunction_sound fun t c r h => ?_
    unfold groupBody at h
    split at h
    · cases h
    · next inside =>
      rw [commit_ok] at inside
      obtain ⟨_, closed, rfl⟩ := map_ok h
      exact ⟨_, ih _ _ _ inside, blanks_of_commit_char closed⟩

theorem expr_shrinks (n : Nat) : Shrinks (Expr n) := by
  induction n with
  | zero => exact disjunction_shrinks fun _ _ _ h => h.elim
  | succ n ih => exact disjunction_shrinks ih

/-- A group in parentheses is read if what it holds is. -/
theorem groupBody_complete {form : Form (Criteria Condition)}
    {read : List Char → Parsed (Criteria Condition)} (complete : Complete Over read form)
    {t u r : List Char} {c : Criteria Condition} (inside : form t c u)
    (closed : Blanks u (')' :: r)) : groupBody read t = .ok (c, r) := by
  have here := complete t c u inside (over_of_blanks closed (.inr ⟨r, rfl⟩))
  rw [groupBody, commit_ok.2 here]
  dsimp only
  rw [closing_complete (.inr (.inr rfl)) closed]
  rfl

/-- Each expression of the grammar is what is read where it is over. -/
theorem orChain_complete (n : Nat) : Complete Over (orChain n) (Expr n) := by
  induction n with
  | zero => exact disjunction_complete (fun _ _ _ h => h.elim) fun _ _ _ _ h _ => h.elim
  | succ n ih =>
    exact disjunction_complete (expr_shrinks n) fun _ _ _ _ => groupBody_complete ih

theorem expression_sound {s : List Char} {c : Criteria Condition} (h : expression s = .ok c) :
    Spells s c := by
  unfold expression at h
  split at h
  · cases h
  · next rest whole =>
    have blanks := blanks_skipBlanks rest
    split at h
    · next nothing =>
      cases h
      rw [nothing] at blanks
      exact ⟨rest, orChain_sound _ _ _ _ whole, blanks⟩
    · cases h

theorem expression_complete {s : List Char} {c : Criteria Condition} (h : Spells s c) :
    expression s = .ok c := by
  obtain ⟨rest, whole, blanks⟩ := h
  have here := orChain_complete _ _ _ _ whole (over_of_blanks blanks (.inl rfl))
  rw [expression, here]
  dsimp only
  rw [skipBlanks_eq blanks noBlank_nil]

theorem spells_of_ofText {text : String} {c : Criteria Condition}
    (h : Criteria.ofText text = .ok c) : Spells text.toList c := by
  unfold Criteria.ofText at h
  split at h
  · next whole =>
    cases h
    exact expression_sound whole
  · cases h

/-- No text spells two trees. -/
theorem Spells.unique {s : List Char} {c d : Criteria Condition} (h : Spells s c)
    (h' : Spells s d) : c = d := by
  have same := (expression_complete h).symm.trans (expression_complete h')
  exact Except.ok.inj same

/-- A text gives a tree exactly if the grammar derives the tree from the text. -/
theorem a_text_gives_what_it_spells (text : String) (c : Criteria Condition) :
    Criteria.ofText text = .ok c ↔ Spells text.toList c := by
  unfold Criteria.ofText
  constructor
  · intro h
    split at h
    · next whole =>
      cases h
      exact expression_sound whole
    · cases h
  · intro h
    rw [expression_complete h]

end Permit.Expression.Grammar
