-- The two operations over HTTP: each has a path, takes a JSON body, and answers with one.
import Permit.Resolution.Owner

namespace Permit

open Json Text

/-! ## Requests and answers -/

/-- A request as it arrives. -/
structure HttpRequest where
  method : String
  path : String
  body : List Glyph

/-- An answer: its status, the two headers that matter, and its body. -/
structure HttpResponse where
  status : Nat
  contentType : Option String
  allow : Option String
  body : String
deriving DecidableEq, Repr

namespace HttpResponse

/-- An answer with a JSON body. -/
def json (status : Nat) (body : Value) : HttpResponse :=
  ⟨status, some "application/json", none, body.text⟩

/-- An answer that refuses a request. -/
def ofError (e : ResolutionError) : HttpResponse :=
  json e.status (ErrorResponse.toJson ⟨e.code, e.publicMessage⟩)

/-- An answer with a JSON body, or one that refuses. -/
def ofResult {α : Type} (toJson : α → Value) : Except ResolutionError α → HttpResponse
  | .ok a => json 200 (toJson a)
  | .error e => ofError e

end HttpResponse

namespace Owner

variable {m : Type → Type} {R Q : Type} [Monad m]

/-- The request that a body spells. -/
def readBody {α : Type} (d : Decoder α) (body : List Glyph) : Except ResolutionError α :=
  (d.ofText body).mapError fun e => .malformedCriteria (e.message body)

/-- The answer to the body of an apply request. -/
def answerApply (o : Owner m R Q) (body : List Glyph) : m HttpResponse :=
  match readBody ApplyRequest.decoder body with
  | .error e => pure (.ofError e)
  | .ok request => do
    return HttpResponse.ofResult ApplyResponse.toJson (← o.applyConditions request)

/-- The answer to the body of a resolve request. -/
def answerResolve (o : Owner m R Q) (query : Q → Value) (body : List Glyph) :
    m HttpResponse :=
  match readBody ResolveRequest.decoder body with
  | .error e => pure (.ofError e)
  | .ok request => do
    return HttpResponse.ofResult (Criteria.toJson query) (← o.resolveFilters request)

/-- The path of a request, up to the question mark that starts its query. -/
def pathOf (request : HttpRequest) : String :=
  String.ofList (request.path.toList.takeWhile (· != '?'))

/-- The answer to a request. Only the two paths exist, and only POST is allowed on them. -/
def answer (o : Owner m R Q) (query : Q → Value) (request : HttpRequest) :
    m HttpResponse :=
  let path := pathOf request
  if path ≠ applyPath ∧ path ≠ resolvePath then pure ⟨404, none, none, ""⟩
  else if request.method ≠ "POST" then pure ⟨405, none, some "POST", ""⟩
  else if path = applyPath then o.answerApply request.body
  else o.answerResolve query request.body

end Owner
end Permit
