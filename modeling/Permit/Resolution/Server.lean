-- Serving: requests are answered in their order until the server is told to stop. One
-- address serves one server.
import Permit.Resolution.Http
import Permit.Settings.Load

namespace Permit

/-- What happens to a server: a request arrives, or it is told to stop. -/
inductive ServerEvent where
  | request (r : HttpRequest)
  | stop

/-- Why nothing is served. -/
inductive ServeError where
  | addressInUse (addr : String)
deriving DecidableEq, Repr

/-- The owner that settings describe. -/
def Owner.ofSettings {m : Type → Type} {R Q : Type} (settings : OwnerSettings)
    (registry : Registry R Q) (fetch : String → m (Fetched R)) : Owner m R Q :=
  ⟨settings.pluginId, settings.resourceType, registry, fetch⟩

namespace Server

variable {m : Type → Type} [Monad m]

/-- The answers to the requests before the first order to stop. -/
def serveOn (answer : HttpRequest → m HttpResponse) : List ServerEvent → m (List HttpResponse)
  | [] | .stop :: _ => pure []
  | .request r :: rest => do
    let first ← answer r
    return first :: (← serveOn answer rest)

/-- Serves on the address of the settings, if it is not in use. -/
def serve (inUse : List String) (settings : ServerSettings)
    (answer : HttpRequest → m HttpResponse) (events : List ServerEvent) :
    m (Except ServeError (List HttpResponse)) :=
  if inUse.contains settings.addr then pure (.error (.addressInUse settings.addr))
  else do return .ok (← serveOn answer events)

end Server
end Permit
