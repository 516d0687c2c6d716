-- Parameters as a list of values. What is written as an array is its items, nothing is
-- the empty list, and any other value is the only parameter.
import Permit.Json.Codec

namespace Permit

open Json

variable {P : Type}

/-- The parameters of a value: the items of an array, none for `null`, and else itself. -/
def paramsOf : Value → List Value
  | .arr items => items
  | .null => []
  | v => [v]

/-- The list that `p` is written as. -/
def encodeParams (c : Codec P) (p : P) : Except EncodeError (List Value) :=
  (c.toValue p).map paramsOf

/-- Whether `p` is written as the list. -/
def encodesTo (c : Codec P) (p : P) (params : List Value) : Bool :=
  match encodeParams c p with
  | .ok written => Value.sameItems written params
  | .error _ => false

/-- The value that a list of at most one parameter may also stand for. -/
def unwrapped? : List Value → Option Value
  | [] => some .null
  | [v] => some v
  | _ => none

/-- Reads parameters: as an array, or as the value that a short list may also stand for.
The second reading counts where the first fails, or where it alone is written as the same
list. -/
def decodeParams (c : Codec P) (params : List Value) : Except Failure P :=
  let positional := c.decoder.ofValue (.arr params)
  match unwrapped? params with
  | none => positional
  | some v =>
    match positional, c.decoder.ofValue v with
    | .ok p, .ok q =>
      if !encodesTo c p params && encodesTo c q params then .ok q else .ok p
    | .ok p, .error _ => .ok p
    | .error _, .ok q => .ok q
    | .error e, .error _ => .error e

end Permit
