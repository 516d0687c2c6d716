-- Criteria: a tree of conditions joined by "all of" and "any of". All of nothing holds,
-- any of nothing does not.

namespace Permit

/-- A tree over leaves of type `α`. -/
inductive Criteria (α : Type) where
  | leaf (a : α)
  | all (children : List (Criteria α))
  | any (children : List (Criteria α))
deriving Inhabited

namespace Criteria

variable {α β : Type}

/-! ## Building -/

/-- Both hold. A tree that is already an `all` takes the other as its last child. -/
def and : Criteria α → Criteria α → Criteria α
  | .all children, other => .all (children ++ [other])
  | first, other => .all [first, other]

/-- One of both holds. A tree that is already an `any` takes the other as its last child. -/
def or : Criteria α → Criteria α → Criteria α
  | .any children, other => .any (children ++ [other])
  | first, other => .any [first, other]

/-! ## Leaves and depth -/

mutual

/-- The leaves from left to right. -/
def leaves : Criteria α → List α
  | .leaf a => [a]
  | .all children => leavesOf children
  | .any children => leavesOf children

def leavesOf : List (Criteria α) → List α
  | [] => []
  | c :: rest => leaves c ++ leavesOf rest

end

mutual

/-- How many groups stand inside one another. -/
def depth : Criteria α → Nat
  | .leaf _ => 0
  | .all children => depthOf children + 1
  | .any children => depthOf children + 1

def depthOf : List (Criteria α) → Nat
  | [] => 0
  | c :: rest => max (depth c) (depthOf rest)

end

/-! ## Deciding -/

section Deciding

variable {m : Type → Type} [Monad m]

mutual

/-- The truth of the tree when `decide` answers for the leaves. Leaves are asked from left
to right and only while the answer is open, so a `decide` that fails ends the walk. -/
def evaluateM (decide : α → m Bool) : Criteria α → m Bool
  | .leaf a => decide a
  | .all children => everyM decide children
  | .any children => someM decide children

/-- All children hold: stops at the first that does not. -/
def everyM (decide : α → m Bool) : List (Criteria α) → m Bool
  | [] => pure true
  | c :: rest => do
    if ← evaluateM decide c then everyM decide rest else pure false

/-- A child holds: stops at the first that does. -/
def someM (decide : α → m Bool) : List (Criteria α) → m Bool
  | [] => pure false
  | c :: rest => do
    if ← evaluateM decide c then pure true else someM decide rest

end

end Deciding

/-- The truth of the tree, or the error of the leaf that could not be decided. -/
def tryEvaluate {ε : Type} (decide : α → Except ε Bool) (c : Criteria α) : Except ε Bool :=
  evaluateM decide c

/-- The truth of the tree when every leaf can be decided. -/
def evaluate (decide : α → Bool) (c : Criteria α) : Bool :=
  Id.run (evaluateM (fun a => pure (decide a)) c)

/-! ## Replacing leaves -/

section Mapping

variable {m : Type → Type} [Monad m]

mutual

/-- The same tree with every leaf replaced, from left to right. -/
def mapM (lower : α → m β) : Criteria α → m (Criteria β)
  | .leaf a => do return .leaf (← lower a)
  | .all children => do return .all (← mapAllM lower children)
  | .any children => do return .any (← mapAllM lower children)

def mapAllM (lower : α → m β) : List (Criteria α) → m (List (Criteria β))
  | [] => pure []
  | c :: rest => do
    let first ← mapM lower c
    return first :: (← mapAllM lower rest)

end

end Mapping

/-- The same tree with every leaf replaced, or the error of the first leaf that has no
replacement. -/
def tryMap {ε : Type} (lower : α → Except ε β) (c : Criteria α) : Except ε (Criteria β) :=
  mapM lower c

/-- The same tree with every leaf replaced. -/
def map (f : α → β) (c : Criteria α) : Criteria β :=
  Id.run (mapM (fun a => pure (f a)) c)

/-! ## Equality -/

mutual

/-- Trees are the same if they have the same shape and the same leaves. -/
def same (eq : α → α → Bool) : Criteria α → Criteria α → Bool
  | .leaf a, .leaf b => eq a b
  | .all as, .all bs => sameAll eq as bs
  | .any as, .any bs => sameAll eq as bs
  | _, _ => false

def sameAll (eq : α → α → Bool) : List (Criteria α) → List (Criteria α) → Bool
  | [], [] => true
  | a :: as, b :: bs => same eq a b && sameAll eq as bs
  | _, _ => false

end

end Criteria
end Permit
