-- The text form of criteria: `and` binds tighter than `or`, so an `any` stands in
-- parentheses only inside an `all`.
import Permit.Criteria.Basic

namespace Permit.Criteria

variable {α : Type}

mutual

/-- The text of a tree, as characters; `inAll` when it stands directly inside an `all`.
A group of one is written as its child. -/
def write (leaf : α → List Char) (inAll : Bool) : Criteria α → List Char
  | .leaf a => leaf a
  | .all [] => "all()".toList
  | .any [] => "any()".toList
  | .all (c :: rest) => write leaf true c ++ writeRest leaf " and " true rest
  | .any [c] => write leaf inAll c
  | .any (c :: rest) =>
    let inner := write leaf false c ++ writeRest leaf " or " false rest
    if inAll then '(' :: inner ++ [')'] else inner

/-- More children, each after the separator. -/
def writeRest (leaf : α → List Char) (separator : String) (inAll : Bool) :
    List (Criteria α) → List Char
  | [] => []
  | c :: rest =>
    separator.toList ++ write leaf inAll c ++ writeRest leaf separator inAll rest

end

/-- The text of a tree. -/
def text (leaf : α → String) (c : Criteria α) : String :=
  String.ofList (write (fun a => (leaf a).toList) false c)

instance [ToString α] : ToString (Criteria α) := ⟨text toString⟩

end Permit.Criteria
