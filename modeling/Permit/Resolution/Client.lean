-- The side that decides: it asks the owner of a resource, and denies whatever is not a
-- clear yes.
import Permit.Resolution.Message

namespace Permit

open Json Text

/-! ## Exchanges -/

/-- A question: where it is sent and the body. -/
structure Question where
  url : String
  body : Value

/-- What comes back: an answer, or nothing at all. -/
inductive Exchange where
  | failed
  | answered (status : Nat) (body : List Glyph)

/-- Why a question has no answer. -/
inductive ClientError where
  | transport (url : String)
  | unexpectedStatus (url : String) (status : Nat) (code : Option String) (message : String)
  | decode (url : String) (reason : String)
deriving DecidableEq, Repr

/-- What is said about the error. -/
def ClientError.message : ClientError → String
  | .transport url => "request to " ++ url ++ " failed"
  | .unexpectedStatus url status _ message =>
    url ++ " answered " ++ toString status ++ ": " ++ message
  | .decode url reason => "invalid response body from " ++ url ++ ": " ++ reason

/-- Whether a status means success. -/
def isSuccess (status : Nat) : Bool := 200 ≤ status && status < 300

/-- What an exchange says. An answer without success is refused even if its body says yes;
its code and message are those of an error body, and else the message is the whole body. -/
def Exchange.read {α : Type} (d : Decoder α) (url : String) : Exchange → Except ClientError α
  | .failed => .error (.transport url)
  | .answered status body =>
    if isSuccess status then
      (d.ofText body).mapError fun e => .decode url (e.message body)
    else
      match ErrorResponse.decoder.ofText body with
      | .ok e => .error (.unexpectedStatus url status (some e.code) e.message)
      | .error _ => .error (.unexpectedStatus url status none (toStringLossy body))

/-! ## The client -/

/-- The address of the owner, without slashes at its end. -/
structure Client where
  baseUrl : String

namespace Client

/-- The client of an address. -/
def ofUrl (url : String) : Client :=
  ⟨String.ofList (url.toList.reverse.dropWhile (· == '/')).reverse⟩

/-- The question whether a resource satisfies a decision. -/
def applyQuestion (c : Client) (ref : String) (d : ConditionalDecision) : Question :=
  ⟨c.baseUrl ++ applyPath, ApplyRequest.toJson ⟨ref, d.resourceType, d.conditions⟩⟩

/-- The question for the query that a decision stands for. -/
def resolveQuestion (c : Client) (d : ConditionalDecision) : Question :=
  ⟨c.baseUrl ++ resolvePath, ResolveRequest.toJson ⟨none, d.resourceType, d.conditions⟩⟩

variable {m : Type → Type} [Monad m]

/-- Whether the owner says that the resource satisfies the decision. To ask the owner is an
action of `m`, so what else it does can be observed. -/
def applyConditions (c : Client) (ask : Question → m Exchange) (ref : String)
    (d : ConditionalDecision) : m (Except ClientError Bool) := do
  let question := c.applyQuestion ref d
  let exchange ← ask question
  return (exchange.read ApplyResponse.decoder question.url).map ApplyResponse.allowed

/-- The query that the owner says the decision stands for. -/
def resolveFilters {Q : Type} (c : Client) (ask : Question → m Exchange) (query : Decoder Q)
    (d : ConditionalDecision) : m (Except ClientError (Criteria Q)) := do
  let question := c.resolveQuestion d
  let exchange ← ask question
  return exchange.read (Criteria.decoder query) question.url

/-- Whether a decision lets the resource through. Only a conditional one is asked about,
and any failure denies. -/
def allows (c : Client) (ask : Question → m Exchange) (ref : String) :
    PolicyDecision → m Bool
  | .allow => pure true
  | .deny => pure false
  | .conditional d => do
    match ← c.applyConditions ask ref d with
    | .ok allowed => return allowed
    | .error _ => return false

end Client
end Permit
