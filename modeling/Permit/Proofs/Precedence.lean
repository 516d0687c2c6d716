-- Trees as tokens. `and` binds tighter than `or`, so tokens that are read by that rule have one
-- truth, and those of a tree have that of the tree as long as every `any` of several inside an
-- `all` stands in parentheses.
import Permit.Proofs.Answers
import Permit.Proofs.Flatten

namespace Permit.Criteria

variable {α : Type}

/-! ## Tokens and their reading -/

/-- A token of a written tree. What a leaf is written as counts as one. -/
inductive Token (α : Type) where
  | atom (a : α)
  | yes
  | no
  | and
  | or
  | opening
  | closing
deriving DecidableEq

/-- What tokens are read as: a factor alone or in parentheses, a product of factors, a sum of
products. -/
inductive Rank where
  | factor
  | product
  | sum

/-- The tokens are of the rank and have that truth, each leaf having its value. -/
inductive Reads (value : α → Bool) : Rank → List (Token α) → Bool → Prop where
  | atom (a : α) : Reads value .factor [.atom a] (value a)
  | yes : Reads value .factor [.yes] true
  | no : Reads value .factor [.no] false
  | group {ts b} : Reads value .sum ts b → Reads value .factor (.opening :: (ts ++ [.closing])) b
  | factor {ts b} : Reads value .factor ts b → Reads value .product ts b
  | and {ts us a b} : Reads value .factor ts a → Reads value .product us b →
      Reads value .product (ts ++ .and :: us) (a && b)
  | product {ts b} : Reads value .product ts b → Reads value .sum ts b
  | or {ts us a b} : Reads value .product ts a → Reads value .sum us b →
      Reads value .sum (ts ++ .or :: us) (a || b)

/-! ## One truth -/

/-- What is known of an open group: the sum of the products that are done, and the product so
far. -/
structure Open where
  sum : Bool
  product : Bool

/-- Takes one token with the groups that are open, the innermost first. -/
def advance (value : α → Bool) : List Open → Token α → List Open
  | ⟨s, p⟩ :: outer, .atom a => ⟨s, p && value a⟩ :: outer
  | ⟨s, p⟩ :: outer, .yes => ⟨s, p⟩ :: outer
  | ⟨s, _⟩ :: outer, .no => ⟨s, false⟩ :: outer
  | ⟨s, p⟩ :: outer, .and => ⟨s, p⟩ :: outer
  | ⟨s, p⟩ :: outer, .or => ⟨s || p, true⟩ :: outer
  | outer, .opening => ⟨false, true⟩ :: outer
  | ⟨s, p⟩ :: ⟨t, q⟩ :: outer, .closing => ⟨t, q && (s || p)⟩ :: outer
  | outer, .closing => outer
  | [], _ => []

section Reads

variable {value : α → Bool} {rank : Rank} {ts us : List (Token α)} {a b : Bool}

/-- What tokens that are read do to the innermost open group. A sum needs its start, as what
stands in front would belong to its first product. -/
theorem Reads.foldl_advance (h : Reads value rank ts b) (s p : Bool) (outer : List Open) :
    match rank with
    | .factor | .product => ts.foldl (advance value) (⟨s, p⟩ :: outer) = ⟨s, p && b⟩ :: outer
    | .sum => ∃ t q, ts.foldl (advance value) (⟨s, true⟩ :: outer) = ⟨t, q⟩ :: outer ∧
        (t || q) = (s || b) := by
  induction h generalizing s p outer with
  | atom a => rfl
  | yes => simp [advance]
  | no => simp [advance]
  | group _ ih =>
    obtain ⟨t, q, eq, same⟩ := ih false false (⟨s, p⟩ :: outer)
    rw [List.foldl_cons, List.foldl_append]
    simp only [advance, eq, List.foldl_cons, List.foldl_nil, same, Bool.false_or]
  | factor _ ih => exact ih s p outer
  | and _ _ first second =>
    rw [List.foldl_append, first s p outer, List.foldl_cons, ← Bool.and_assoc]
    exact second s _ outer
  | product _ ih => exact ⟨s, _, ih s true outer, rfl⟩
  | @or ts us a b _ _ first second =>
    obtain ⟨t, q, eq, same⟩ := second (s || a) true outer
    refine ⟨t, q, ?_, by rw [same, Bool.or_assoc]⟩
    rw [List.foldl_append, first s true outer, List.foldl_cons, Bool.true_and]
    exact eq

/-- Tokens have at most one truth. -/
theorem Reads.unique (h : Reads value .sum ts a) (h' : Reads value .sum ts b) : a = b := by
  obtain ⟨t, q, eq, same⟩ := h.foldl_advance false true []
  obtain ⟨t', q', eq', same'⟩ := h'.foldl_advance false true []
  cases eq.symm.trans eq'
  simpa using same.symm.trans same'

/-! ## Longer products and sums -/

theorem Reads.mul (h : Reads value .product ts a) (h' : Reads value .product us b) :
    Reads value .product (ts ++ .and :: us) (a && b) := by
  generalize hr : Rank.product = r at h
  induction h with
  | factor first => exact .and first h'
  | and first _ _ ih =>
    rw [List.append_assoc, List.cons_append, Bool.and_assoc]
    exact .and first (ih hr)
  | _ => cases hr

theorem Reads.add (h : Reads value .sum ts a) (h' : Reads value .sum us b) :
    Reads value .sum (ts ++ .or :: us) (a || b) := by
  generalize hr : Rank.sum = r at h
  induction h with
  | product first => exact .or first h'
  | or first _ _ ih =>
    rw [List.append_assoc, List.cons_append, Bool.or_assoc]
    exact .or first (ih hr)
  | _ => cases hr

end Reads

/-! ## The tokens of a tree -/

mutual

/-- The tokens of a tree; `inAll` when it stands directly inside an `all`, which an `any` of
several answers with parentheses. A group of one in `any` is written as its child, which stands
where the group does if `keep` is set, and else stands alone. -/
def tokens (keep inAll : Bool) : Criteria α → List (Token α)
  | .leaf a => [.atom a]
  | .all [] => [.yes]
  | .any [] => [.no]
  | .all (c :: rest) => tokens keep true c ++ moreTokens keep true .and rest
  | .any [c] => tokens keep (keep && inAll) c
  | .any (c :: rest) =>
    let inner := tokens keep false c ++ moreTokens keep false .or rest
    if inAll then .opening :: (inner ++ [.closing]) else inner

/-- More children, each after the separator. -/
def moreTokens (keep inAll : Bool) (separator : Token α) : List (Criteria α) → List (Token α)
  | [] => []
  | c :: rest => separator :: (tokens keep inAll c ++ moreTokens keep inAll separator rest)

end

section Cases

variable {keep inAll : Bool}

theorem tokens_leaf (a : α) : tokens keep inAll (.leaf a) = [.atom a] := by rw [tokens]

theorem tokens_all_nil : tokens keep inAll (.all [] : Criteria α) = [.yes] := by rw [tokens]

theorem tokens_any_nil : tokens keep inAll (.any [] : Criteria α) = [.no] := by rw [tokens]

theorem tokens_all (c : Criteria α) (rest : List (Criteria α)) :
    tokens keep inAll (.all (c :: rest)) =
      tokens keep true c ++ moreTokens keep true .and rest := by
  rw [tokens]

theorem tokens_any_one (c : Criteria α) :
    tokens keep inAll (.any [c]) = tokens keep (keep && inAll) c := by
  rw [tokens]

theorem tokens_any (c d : Criteria α) (rest : List (Criteria α)) :
    tokens keep inAll (.any (c :: d :: rest)) =
      if inAll then
        .opening :: ((tokens keep false c ++ moreTokens keep false .or (d :: rest)) ++ [.closing])
      else tokens keep false c ++ moreTokens keep false .or (d :: rest) := by
  rw [tokens]
  intro h
  cases h

end Cases

/-! ## What the tokens of a tree are read as -/

section Truth

variable {value : α → Bool} {keep : Bool} {ts : List (Token α)} {a : Bool}

theorem reads_more_and {rest : List (Criteria α)} (first : Reads value .product ts a)
    (each : ∀ c ∈ rest, Reads value .product (tokens keep true c) (truth value c)) :
    Reads value .product (ts ++ moreTokens keep true .and rest) (a && rest.all (truth value)) := by
  induction rest generalizing ts a with
  | nil => simpa [moreTokens] using first
  | cons c rest ih =>
    have next := ih (first.mul (each c List.mem_cons_self))
      fun d hd => each d (List.mem_cons_of_mem _ hd)
    simpa [moreTokens, Bool.and_assoc] using next

theorem reads_more_or {rest : List (Criteria α)} (first : Reads value .sum ts a)
    (each : ∀ c ∈ rest, Reads value .sum (tokens keep false c) (truth value c)) :
    Reads value .sum (ts ++ moreTokens keep false .or rest) (a || rest.any (truth value)) := by
  induction rest generalizing ts a with
  | nil => simpa [moreTokens] using first
  | cons c rest ih =>
    have next := ih (first.add (each c List.mem_cons_self))
      fun d hd => each d (List.mem_cons_of_mem _ hd)
    simpa [moreTokens, Bool.or_assoc] using next

/-- With the place of each group of one kept, the tokens of a tree are a product inside an `all`
and else a sum, with the truth of the tree. -/
theorem reads_tokens (value : α → Bool) (c : Criteria α) :
    Reads value .product (tokens true true c) (truth value c) ∧
      Reads value .sum (tokens true false c) (truth value c) := by
  induction c using cases_of_text with
  | leaf a =>
    rw [tokens_leaf, tokens_leaf, truth_leaf]
    exact ⟨.factor (.atom a), .product (.factor (.atom a))⟩
  | allNil =>
    rw [tokens_all_nil, tokens_all_nil, truth_all]
    exact ⟨.factor .yes, .product (.factor .yes)⟩
  | anyNil =>
    rw [tokens_any_nil, tokens_any_nil, truth_any]
    exact ⟨.factor .no, .product (.factor .no)⟩
  | all c rest ih =>
    have product := reads_more_and (ih c List.mem_cons_self).1
      fun d hd => (ih d (List.mem_cons_of_mem _ hd)).1
    rw [tokens_all, tokens_all, truth_all]
    exact ⟨product, .product product⟩
  | anyOne c ih =>
    rw [tokens_any_one, tokens_any_one, truth_any]
    simpa using ih
  | any c d rest ih =>
    have sum := reads_more_or (ih c List.mem_cons_self).2
      fun e he => (ih e (List.mem_cons_of_mem _ he)).2
    rw [tokens_any, tokens_any, truth_any]
    exact ⟨.factor (.group sum), sum⟩

end Truth

/-! ## Trees whose groups of one do no harm -/

/-- An `any` of several, perhaps in groups of one: its tokens outside of parentheses are joined
by `or`. -/
inductive Joined : Criteria α → Prop where
  | several (c d : Criteria α) (rest : List (Criteria α)) : Joined (.any (c :: d :: rest))
  | one {c : Criteria α} : Joined c → Joined (.any [c])

/-- No `any` of several stands inside an `all` in groups of one only. -/
inductive Guarded : Criteria α → Prop where
  | leaf (a : α) : Guarded (.leaf a)
  | all {cs : List (Criteria α)} : (∀ c ∈ cs, Guarded c) → (∀ c, .any [c] ∈ cs → ¬ Joined c) →
      Guarded (.all cs)
  | any {cs : List (Criteria α)} : (∀ c ∈ cs, Guarded c) → Guarded (.any cs)

theorem guarded_all_iff {cs : List (Criteria α)} :
    Guarded (.all cs) ↔ (∀ c ∈ cs, Guarded c) ∧ ∀ c, .any [c] ∈ cs → ¬ Joined c :=
  ⟨fun h => by cases h with | all each apart => exact ⟨each, apart⟩, fun h => .all h.1 h.2⟩

theorem guarded_any_iff {cs : List (Criteria α)} : Guarded (.any cs) ↔ ∀ c ∈ cs, Guarded c :=
  ⟨fun h => by cases h with | any each => exact each, .any⟩

theorem moreTokens_congr {keep keep' inAll : Bool} (separator : Token α)
    {cs : List (Criteria α)} (each : ∀ c ∈ cs, tokens keep inAll c = tokens keep' inAll c) :
    moreTokens keep inAll separator cs = moreTokens keep' inAll separator cs := by
  induction cs with
  | nil => rw [moreTokens, moreTokens]
  | cons c rest ih =>
    rw [moreTokens, moreTokens, each c List.mem_cons_self,
      ih fun d hd => each d (List.mem_cons_of_mem _ hd)]

/-- Where nothing is joined by `or`, an `all` asks for no parentheses. -/
theorem tokens_of_not_joined {keep : Bool} {c : Criteria α} (h : ¬ Joined c) :
    tokens keep true c = tokens keep false c := by
  induction c using cases_of_text with
  | leaf a => rw [tokens_leaf, tokens_leaf]
  | allNil => rw [tokens_all_nil, tokens_all_nil]
  | anyNil => rw [tokens_any_nil, tokens_any_nil]
  | all c rest _ => rw [tokens_all, tokens_all]
  | anyOne c ih =>
    rw [tokens_any_one, tokens_any_one, Bool.and_true, Bool.and_false]
    cases keep with
    | false => rfl
    | true => exact ih fun inner => h (.one inner)
  | any c d rest _ => exact absurd (.several c d rest) h

/-- Groups of one that do no harm may lose their place. -/
theorem Guarded.tokens_eq {c : Criteria α} (h : Guarded c) :
    tokens false false c = tokens true false c ∧
      ((∀ d, c = .any [d] → ¬ Joined d) → tokens false true c = tokens true true c) := by
  induction c using cases_of_text with
  | leaf a => simp only [tokens_leaf, implies_true, and_self]
  | allNil => simp only [tokens_all_nil, implies_true, and_self]
  | anyNil => simp only [tokens_any_nil, implies_true, and_self]
  | all c rest ih =>
    cases h with
    | all each apart =>
      have same : ∀ d ∈ c :: rest, tokens false true d = tokens true true d := fun d hd =>
        (ih d hd (each d hd)).2 fun e eq => apart e (eq ▸ hd)
      have more := moreTokens_congr .and
        fun d hd => same d (List.mem_cons_of_mem c hd)
      have all : tokens false true c ++ moreTokens false true .and rest =
          tokens true true c ++ moreTokens true true .and rest := by
        rw [same c List.mem_cons_self, more]
      simp only [tokens_all, all, implies_true, and_self]
  | anyOne c ih =>
    cases h with
    | any each =>
      have inner := (ih (each c List.mem_cons_self)).1
      simp only [tokens_any_one, Bool.false_and, Bool.true_and]
      refine ⟨inner, fun apart => ?_⟩
      rw [inner, tokens_of_not_joined (apart c rfl)]
  | any c d rest ih =>
    cases h with
    | any each =>
      have same : ∀ e ∈ c :: d :: rest, tokens false false e = tokens true false e := fun e he =>
        (ih e he (each e he)).1
      have more := moreTokens_congr .or
        fun e he => same e (List.mem_cons_of_mem c he)
      simp only [tokens_any, same c List.mem_cons_self, more, implies_true, and_self]

/-! ## Lost parentheses -/

def Token.isOpening : Token α → Bool
  | .opening => true
  | _ => false

/-- How many groups the tokens of a tree put in parentheses. -/
def opened (keep inAll : Bool) (c : Criteria α) : Nat :=
  (tokens keep inAll c).countP Token.isOpening

section Opened

variable {keep inAll : Bool}

theorem opened_all (c : Criteria α) (rest : List (Criteria α)) :
    opened keep inAll (.all (c :: rest)) =
      opened keep true c + (moreTokens keep true .and rest).countP Token.isOpening := by
  simp [opened, tokens_all]

theorem opened_any_one (c : Criteria α) :
    opened keep inAll (.any [c]) = opened keep (keep && inAll) c := by
  rw [opened, opened, tokens_any_one]

theorem opened_any (c d : Criteria α) (rest : List (Criteria α)) :
    opened keep inAll (.any (c :: d :: rest)) =
      opened keep false c + (moreTokens keep false .or (d :: rest)).countP Token.isOpening +
        inAll.toNat := by
  cases inAll <;> simp [opened, tokens_any, List.countP_cons, Token.isOpening, Nat.add_assoc]

end Opened

theorem opened_of_joined {c : Criteria α} (h : Joined c) :
    opened true true c = opened true false c + 1 := by
  induction h with
  | several c d rest => simp [opened_any]
  | one _ ih => simpa only [opened, tokens_any_one, Bool.true_and] using ih

theorem opened_le_inAll (c : Criteria α) : opened true false c ≤ opened true true c := by
  by_cases joined : Joined c
  · rw [opened_of_joined joined]
    exact Nat.le_succ _
  · rw [opened, opened, tokens_of_not_joined joined]

theorem countP_more_le {inAll : Bool} (separator : Token α) {cs : List (Criteria α)}
    (each : ∀ c ∈ cs, opened false inAll c ≤ opened true inAll c) :
    (moreTokens false inAll separator cs).countP Token.isOpening ≤
      (moreTokens true inAll separator cs).countP Token.isOpening := by
  induction cs with
  | nil => simp [moreTokens]
  | cons c rest ih =>
    have first := each c List.mem_cons_self
    have more := ih fun d hd => each d (List.mem_cons_of_mem _ hd)
    simp only [opened] at first
    simp only [moreTokens, List.countP_cons, List.countP_append]
    omega

/-- No parentheses are opened more when groups of one lose their place. -/
theorem opened_le (c : Criteria α) (inAll : Bool) :
    opened false inAll c ≤ opened true inAll c := by
  induction c using cases_of_text generalizing inAll with
  | leaf a => simp [opened, tokens_leaf]
  | allNil => simp [opened, tokens_all_nil]
  | anyNil => simp [opened, tokens_any_nil]
  | all c rest ih =>
    rw [opened_all, opened_all]
    exact Nat.add_le_add (ih c List.mem_cons_self true)
      (countP_more_le .and fun d hd => ih d (List.mem_cons_of_mem c hd) true)
  | anyOne c ih =>
    rw [opened_any_one, opened_any_one, Bool.false_and, Bool.true_and]
    cases inAll with
    | false => exact ih false
    | true => exact (ih false).trans (opened_le_inAll c)
  | any c d rest ih =>
    rw [opened_any, opened_any]
    exact Nat.add_le_add_right (Nat.add_le_add (ih c List.mem_cons_self false)
      (countP_more_le .or fun e he => ih e (List.mem_cons_of_mem c he) false)) _

/-- If children open as many parentheses when groups of one lose their place, each of them does. -/
theorem opened_eq_of_children {inAll : Bool} {separator : Token α} {c : Criteria α}
    {rest : List (Criteria α)}
    (same : opened false inAll c + (moreTokens false inAll separator rest).countP Token.isOpening =
      opened true inAll c + (moreTokens true inAll separator rest).countP Token.isOpening) :
    ∀ d ∈ c :: rest, opened false inAll d = opened true inAll d := by
  have first := opened_le c inAll
  have more := countP_more_le separator fun d (_ : d ∈ rest) => opened_le d inAll
  refine List.forall_mem_cons.2 ⟨by omega, ?_⟩
  induction rest generalizing c with
  | nil => exact nofun
  | cons d rest ih =>
    have next := opened_le d inAll
    have others := countP_more_le separator fun e (_ : e ∈ rest) => opened_le e inAll
    simp only [opened] at first next same
    simp only [moreTokens, List.countP_cons, List.countP_append] at same more
    refine List.forall_mem_cons.2 ⟨by simp only [opened]; omega, ih ?_ next others⟩
    simp only [opened]
    omega

/-- As many parentheses are opened only if groups of one do no harm. -/
theorem guarded_of_opened {inAll : Bool} {c : Criteria α}
    (same : opened false inAll c = opened true inAll c) :
    Guarded c ∧ (inAll = true → ∀ d, c = .any [d] → ¬ Joined d) := by
  induction c using cases_of_text generalizing inAll with
  | leaf a => exact ⟨.leaf a, fun _ => nofun⟩
  | allNil => exact ⟨.all (by simp) (by simp), fun _ => nofun⟩
  | anyNil => exact ⟨.any (by simp), fun _ => nofun⟩
  | all c rest ih =>
    rw [opened_all, opened_all] at same
    have each : ∀ d ∈ c :: rest, Guarded d ∧ (true = true → ∀ e, d = .any [e] → ¬ Joined e) :=
      fun d hd => ih d hd (opened_eq_of_children same d hd)
    exact ⟨.all (fun d hd => (each d hd).1) fun e he => (each _ he).2 rfl e rfl, fun _ => nofun⟩
  | anyOne c ih =>
    rw [opened_any_one, opened_any_one, Bool.false_and, Bool.true_and] at same
    cases inAll with
    | false => exact ⟨.any (by simpa using (ih same).1), nofun⟩
    | true =>
      -- A child that is joined would open one more inside the `all`.
      have le := opened_le c false
      have apart : ¬ Joined c := fun joined => by
        rw [opened_of_joined joined] at same
        omega
      have inner : opened false false c = opened true false c := by
        rw [same, opened, opened, tokens_of_not_joined apart]
      refine ⟨.any (by simpa using (ih inner).1), ?_⟩
      rintro - d ⟨⟩
      exact apart
  | any c d rest ih =>
    rw [opened_any, opened_any] at same
    have each := opened_eq_of_children (Nat.add_right_cancel same)
    exact ⟨.any fun e he => (ih e he (each e he)).1, fun _ => nofun⟩

/-- The tokens keep all parentheses exactly if groups of one do no harm. -/
theorem tokens_eq_iff (c : Criteria α) :
    tokens false false c = tokens true false c ↔ Guarded c :=
  ⟨fun same => (guarded_of_opened (by rw [opened, opened, same])).1, fun h => h.tokens_eq.1⟩

end Permit.Criteria
