/-
Invites: another server invites a user of the peer to a room, and the peer signs the invite too.
-/
import Homeserver.Peer.Basic

namespace Homeserver.Peer

/-- The invite of a request with the version of its room, which must be the ones that the path
names. -/
def readInvite (roomId eventId : String) (body : Option Json) :
    Except Refusal (RoomVersion × Event) := do
  let some body := body | throw .bodyNotJson
  let some versionId := (body.get? "room_version").bind Json.string?
    | throw (.badJson (.missing "room_version"))
  let version ← (RoomVersion.ofId versionId).mapError Refusal.ofEvent
  let some pdu := body.get? "event" | throw (.badJson (.missing "event"))
  let e ← (Event.ofPdu version pdu).mapError Refusal.ofEvent
  if e.id ≠ eventId || e.roomId ≠ roomId then throw (.badJson (.otherInvite e.id e.roomId))
  if e.membership ≠ some "invite" then throw (.badJson .notInvite)
  return (version, e)

/-- Accepts an invite of a user of the peer. Gives the invite with the peer's signature. -/
def acceptInvite (p : Peer) (roomId eventId : String) (body : Option Json) :
    Except Refusal (Event × Peer) := do
  let (version, e) ← readInvite roomId eventId body
  let invitee := e.stateKey.getD ""
  if Ids.serverName? invitee ≠ some p.serverName then
    throw (.forbidden (.foreignInvitee invitee p.serverName))
  let signed ← (e.addSignature p.identity).mapError Refusal.ofEvent
  return (signed, { p with
    invitedVersions := Table.insert roomId version p.invitedVersions
    invites := p.invites ++ [signed] })

end Homeserver.Peer
