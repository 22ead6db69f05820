/-
Requests of a peer to other servers: where they go, how they are signed, and how the answers are
read. Each request is sent once.
-/
import Homeserver.Identity
import Homeserver.Json.Reader
import Homeserver.Net.Exchange
import Homeserver.Peer.Error

namespace Homeserver

/-- The base URLs of other servers by their names. -/
abbrev Destinations := Table String String

/-- What is asked of another server. -/
structure Outbound where
  method : String
  destination : String
  /-- The segments of the path behind the base URL. -/
  segments : List String
  query : List (String × String) := []
  body : Option Json := none

namespace Outbound

/-! ## Sending -/

/-- The URL of a request. -/
def url (o : Outbound) (destinations : Destinations) : Except PeerError Url := do
  let some base := Table.find? o.destination destinations
    | throw (.unknownDestination o.destination)
  let read ← (Url.read base).mapError (fun e => PeerError.http (.badBase base e))
  let some extended := read.extend? o.segments | throw (.http (.opaqueBase base))
  return extended.addQuery o.query

/-- A request as the other server receives it, signed for this URL. -/
def sign (o : Outbound) (s : Identity) (u : Url) : Except PeerError Request := do
  let authorization ← (s.authorization o.method u.target o.destination o.body).mapError
    PeerError.event
  if !isHeaderValue authorization || !u.isWeb then throw (.http .unsendable)
  return ⟨o.method, u.target, headerValue authorization, o.body⟩

/-! ## Answers -/

/-- The value that comes back from a URL. -/
def readAnswer (u : Url) : Reply → Except PeerError Json
  | .dropped => .error (.http .noAnswer)
  | .cut status =>
    if isSuccess status then .error (.invalidAnswer u.text .notJson)
    else .error (.remote u.text status "")
  | .answer status body =>
    if !isSuccess status then .error (.remote u.text status (bodyText body))
    else
      match Json.read? body with
      | some v => .ok v
      | none => .error (.invalidAnswer u.text .notJson)

/-- Asks another server. Gives what its reply says and the request that was made; without a reply
the server was not reached. -/
def ask (o : Outbound) (s : Identity) (destinations : Destinations) (reply : Option Reply) :
    Except PeerError Json × List Request :=
  let prepared := do
    let u ← o.url destinations
    return (u, ← o.sign s u)
  match prepared, reply with
  | .error e, _ => (.error e, [])
  | .ok _, none => (.error (.http .noAnswer), [])
  | .ok (u, request), some reply => (readAnswer u (reply.received o.method), [request])

end Outbound

end Homeserver
