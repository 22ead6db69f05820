/-
How a peer answers requests. A request that is refused or not understood changes nothing, but one
that no route serves is remembered by a strict peer. Of a transaction that breaks off some events
may have been taken.
-/
import Homeserver.Peer.Answer
import Homeserver.Peer.Endpoint
import Homeserver.Peer.Invite
import Homeserver.Peer.Transaction

namespace Homeserver

namespace Peer

/-! ## Answers of single services -/

/-- The answer to a request that only looks something up. -/
def answerLookup (p : Peer) (result : Except Refusal Json) : PeerAnswer × Peer :=
  match result with
  | .ok body => (.served body, p)
  | .error why => (.ofRefusal why, p)

/-- The answer to a request that may change the peer. -/
def answerChange {α : Type} (p : Peer) (result : Except Refusal (α × Peer)) (body : α → Json) :
    PeerAnswer × Peer :=
  match result with
  | .ok (a, next) => (.served (body a), next)
  | .error why => (.ofRefusal why, p)

/-- The answer to a transaction. -/
def answerTransaction (p : Peer)
    (result : Except Refusal (Option (TransactionOutcome EventError) × Peer)) : PeerAnswer × Peer :=
  match result with
  | .ok (some outcome, next) =>
    (.served (Json.object [("pdus", outcome.json EventError.message)]), next)
  | .ok (none, next) => (.lost, next)
  | .error why => (.ofRefusal why, p)

/-- The answer to a query for an alias. -/
def answerDirectory (p : Peer) (query : List Char) : PeerAnswer × Peer :=
  match onlyParameter query "room_alias" with
  | .ok name => p.answerLookup (p.lookUpAlias name)
  | .error cause => (.misread (.query cause), p)

end Peer

/-- Answers a request for a service with these parameters of the path. -/
def Endpoint.answer (e : Endpoint) (p : Peer) (q : Inbound) (parameters : List String) :
    PeerAnswer × Peer :=
  match e, parameters with
  | keys, _ => p.answerLookup (p.keyDocument q.time)
  | directory, _ => p.answerDirectory q.query
  | propose h, [roomId, userId] =>
    p.answerLookup (p.proposeMembership h q.time roomId userId q.query)
  | accept h, [roomId, eventId] =>
    p.answerChange (p.acceptMembership h roomId eventId q.body) (p.membershipAnswer h)
  | invite, [roomId, eventId] =>
    p.answerChange (p.acceptInvite roomId eventId q.body)
      (fun signed => Json.object [("event", signed.json)])
  | transaction, _ => p.answerTransaction (p.receiveTransaction q.body)
  | event, [eventId] => p.answerLookup (p.lookUpEvent q.time eventId)
  | missingEvents, [roomId] => p.answerLookup (p.lookUpMissing roomId q.body)
  | fixed body, _ => (.served body, p)
  | _, _ => (.refused .internal, p)

namespace Peer

/-! ## Requests -/

/-- The answer to a request that no route serves. -/
def answerUnexpected (p : Peer) (q : Inbound) : PeerAnswer × Peer :=
  if p.strict then
    (.refused (.unrecognised ("unrecognised request " ++ q.shown)),
      { p with unexpected := p.unexpected ++ [q.shown] })
  else (.served (.obj []), p)

/-- Answers a request. -/
def receive (routes : Routes) (p : Peer) (q : Inbound) : PeerAnswer × Peer :=
  match routes.find? q.method q.path with
  | none => p.answerUnexpected q
  | some (route, values) =>
    match PathPattern.decode route.path.parameters values with
    | .ok parameters => route.endpoint.answer p q parameters
    | .error name => (.misread (.parameter name), p)

/-- Answers requests one after the other. -/
def receiveAll (routes : Routes) (p : Peer) : List Inbound → List PeerAnswer × Peer
  | [] => ([], p)
  | q :: rest =>
    let (answer, next) := receive routes p q
    let (answers, last) := receiveAll routes next rest
    (answer :: answers, last)

end Peer

end Homeserver
