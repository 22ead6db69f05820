/-
Joining rooms of other servers: the other server proposes a join, the peer signs it and sends it
back, and gets the state of the room and what authorises it. Transactions to other servers stand
here too.
-/
import Homeserver.Peer.Outbound
import Homeserver.Peer.Transaction
import Homeserver.Room.RemoteJoin

namespace Homeserver

/-! ## Proposals -/

/-- A join that another server proposes. -/
structure JoinProposal where
  version : RoomVersion
  event : Json

namespace JoinProposal

/-- The request for a proposal, which offers every version. -/
def request (destination roomId userId : String) : Outbound where
  method := "GET"
  destination
  segments := ["_matrix", "federation", "v1", "make_join", roomId, userId]
  query := RoomVersion.all.map (fun v => ("ver", v.id))

def read (destination : String) (body : Json) : Except PeerError JoinProposal := do
  let source := "make_join on " ++ destination
  let some versionId := (body.get? "room_version").bind Json.string?
    | throw (.invalidAnswer source (.missing "room_version"))
  let version ← (RoomVersion.ofId versionId).mapError PeerError.event
  let some event := body.get? "event" | throw (.invalidAnswer source (.missing "event"))
  return { version, event }

/-- The join that the peer makes of a proposal. -/
def sign (m : JoinProposal) (s : Identity) (now : Int) : Except PeerError Event := do
  let unsigned ← (UnsignedEvent.ofProto m.version m.event s.serverName now).mapError PeerError.event
  return s.signEvent unsigned

end JoinProposal

/-! ## Accepted joins -/

/-- What another server gives for a join. -/
structure JoinAnswer where
  state : List Json
  authChain : List Json
  /-- The join with the other server's signature, if it is given. -/
  event : Option Json

namespace JoinAnswer

/-- The request that sends a join. -/
def request (destination : String) (join : Event) : Outbound where
  method := "PUT"
  destination
  segments := ["_matrix", "federation", "v2", "send_join", join.roomId, join.id]
  body := some join.json

def read (destination : String) (body : Json) : Except PeerError JoinAnswer := do
  let source := "send_join on " ++ destination
  let some state := (body.get? "state").bind Json.array?
    | throw (.invalidAnswer source (.missing "state"))
  let some authChain := (body.get? "auth_chain").bind Json.array?
    | throw (.invalidAnswer source (.missing "auth_chain"))
  return { state, authChain, event := body.get? "event" }

/-- The joined room. -/
def room (a : JoinAnswer) (version : RoomVersion) (roomId : String) (join : Event) :
    Except EventError Room := do
  let state ← a.state.mapM (Event.ofPdu version)
  let authChain ← a.authChain.mapM (Event.ofPdu version)
  let signed ← match a.event with
    | some pdu => Event.ofPdu version pdu
    | none => pure join
  Room.ofRemoteJoin version roomId state authChain signed

end JoinAnswer

namespace Peer

/-! ## Joining -/

/-- The join that the peer sends to a room of another server for one of its users, with the room's
version; the reply is that to the request for a proposal. -/
def prepareJoin (p : Peer) (destinations : Destinations) (now : Int)
    (destination roomId userId : String) (reply : Option Reply) :
    Except PeerError (RoomVersion × Event) × List Request :=
  let (proposed, asked) :=
    (JoinProposal.request destination roomId userId).ask p.identity destinations reply
  let made := do
    let proposal ← JoinProposal.read destination (← proposed)
    return (proposal.version, ← proposal.sign p.identity now)
  (made, asked)

/-- Sends a join and holds the room that is made of the reply. -/
def completeJoin (p : Peer) (destinations : Destinations) (destination roomId : String)
    (version : RoomVersion) (join : Event) (reply : Option Reply) :
    Except PeerError (Room × Peer) × List Request :=
  let (accepted, sent) :=
    (JoinAnswer.request destination join).ask p.identity destinations reply
  let joined := do
    let answer ← JoinAnswer.read destination (← accepted)
    let r ← (answer.room version roomId join).mapError PeerError.event
    return (r, p.holdRoom r)
  (joined, sent)

/-- Joins a room of another server for a user of the peer; the replies are those to the request for
a proposal and to the join. Gives the room and the requests that were made. -/
def join (p : Peer) (destinations : Destinations) (now : Int) (destination roomId userId : String)
    (replies : List Reply) : Except PeerError (Room × Peer) × List Request :=
  match p.prepareJoin destinations now destination roomId userId replies[0]? with
  | (.error e, asked) => (.error e, asked)
  | (.ok (version, join), asked) =>
    let (joined, sent) := p.completeJoin destinations destination roomId version join replies[1]?
    (joined, asked ++ sent)

/-! ## Transactions -/

/-- The request that sends a transaction. -/
def transactionRequest (p : Peer) (now : Int) (destination id : String) (pdus edus : List Json) :
    Outbound where
  method := "PUT"
  destination
  segments := ["_matrix", "federation", "v1", "send", id]
  body := some (Json.object [
    ("origin", .str p.serverName),
    ("origin_server_ts", .int now),
    ("pdus", .arr pdus),
    ("edus", .arr edus)])

/-- What another server reports of the events of a transaction. -/
def reportedOutcome (body : Json) : TransactionOutcome String :=
  Table.ofList ((((body.get? "pdus").bind Json.members?).getD []).map (fun (id, result) =>
    (id, match (result.get? "error").bind Json.string? with
      | some reason => .error reason
      | none => .ok ())))

/-- Sends events and messages to another server in one transaction; `id` tells it from others. -/
def sendTransaction (p : Peer) (destinations : Destinations) (now : Int) (destination id : String)
    (pdus edus : List Json) (reply : Option Reply) :
    Except PeerError (TransactionOutcome String) × List Request :=
  let (answer, sent) :=
    (p.transactionRequest now destination id pdus edus).ask p.identity destinations reply
  (answer.map reportedOutcome, sent)

end Peer

end Homeserver
