/-
How users of other servers join a room of the peer, or knock on it: the peer proposes a membership
event on the room as it stands, the user's server signs it, and the peer appends what it gets back
if the room has not changed meanwhile.
-/
import Homeserver.Net.Form
import Homeserver.Peer.Basic
import Homeserver.Room.Walk

namespace Homeserver

/-- The memberships that users of other servers ask for. -/
inductive Handshake where
  | join
  | knock
  deriving DecidableEq, Repr

namespace Handshake

def membership : Handshake → String
  | join => "join"
  | knock => "knock"

/-- Whether rooms of a version have the membership. -/
def isOf (h : Handshake) (version : RoomVersion) : Bool :=
  match h with
  | join => true
  | knock => version.knocking

end Handshake

/-- A membership event that was appended, with the room before it. -/
structure AcceptedMembership where
  event : Event
  /-- The state before the event. -/
  state : List Event
  /-- The recorded events that authorise the event and the state. -/
  authChain : List Event
  /-- The state that users see who are not in the room. -/
  strippedState : List Json

namespace Peer

/-! ## Proposing -/

/-- The room versions that a query offers; nothing if it offers none. -/
def offeredVersions (query : List Char) : Option (List String) :=
  match (Form.decode query).filterMap (fun (name, v) => if name = "ver" then some v else none) with
  | [] => none
  | versions => some versions

/-- Whether a query that offers versions offers this one. -/
def isOffered (query : List Char) (version : RoomVersion) : Bool :=
  (offeredVersions query).all (fun offered => offered.contains version.id)

/-- Proposes a membership event of a user on a room as it stands. -/
def proposeMembership (p : Peer) (h : Handshake) (now : Int) (roomId userId : String)
    (query : List Char) : Except Refusal Json := do
  let r ← p.knownRoom roomId
  if !isOffered query r.version then throw (.incompatibleVersion r.version.id)
  if !h.isOf r.version then throw (.incompatibleVersion r.version.id)
  let proposed ← (r.build p.serverName now (.member userId userId h.membership)).mapError
    Refusal.ofEvent
  return Json.object [("event", proposed.json), ("room_version", .str r.version.id)]

/-! ## Accepting -/

/-- What authorises the state of a room and one further event. -/
def authorisingIds (state : List Event) (e : Event) : List String :=
  KeySet.toList (KeySet.ofList ((state ++ [e]).flatMap Event.authEvents))

/-- The signed membership event of a request, which must be the one that the path names, in the room
that it names, and set the membership of its own sender. -/
def readMembership (h : Handshake) (version : RoomVersion) (roomId eventId : String)
    (body : Option Json) : Except Refusal Event := do
  let some pdu := body | throw .bodyNotJson
  let e ← (Event.ofPdu version pdu).mapError Refusal.ofEvent
  if e.id ≠ eventId then throw (.badJson (.otherEvent e.id eventId))
  if e.roomId ≠ roomId then throw (.badJson (.otherRoom e.roomId roomId))
  if e.membership ≠ some h.membership || e.stateKey ≠ some e.sender then
    throw (.badJson (.notMembership h.membership))
  return e

/-- Appends a signed membership event to a room. -/
def acceptMembership (p : Peer) (h : Handshake) (roomId eventId : String) (body : Option Json) :
    Except Refusal (AcceptedMembership × Peer) := do
  let r ← p.knownRoom roomId
  let event ← readMembership h r.version roomId eventId body
  let next ← (r.addEvent event).mapError Refusal.ofEvent
  let state := r.currentState
  return ({
    event
    state
    authChain := r.authChain (authorisingIds state event)
    strippedState := r.strippedState }, p.holdRoom next)

/-- What the other server is told of an accepted event: the room as it was, or for a knock what
users see who are not in it. -/
def membershipAnswer (p : Peer) (h : Handshake) (a : AcceptedMembership) : Json :=
  match h with
  | .join => Json.object [
      ("origin", .str p.serverName),
      ("state", .arr (a.state.map Event.json)),
      ("auth_chain", .arr (a.authChain.map Event.json)),
      ("event", a.event.json),
      ("members_omitted", .bool false)]
  | .knock => Json.object [("knock_room_state", .arr a.strippedState)]

end Peer

end Homeserver
