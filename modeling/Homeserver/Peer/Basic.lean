/-
Peers: what a server that takes part in rooms with other servers knows. The rooms it holds grow by
events; no request of another server adds or removes a room or an alias.
-/
import Homeserver.Ids
import Homeserver.Peer.Refusal
import Homeserver.Room.Append
import Homeserver.Text.Quoted

namespace Homeserver

/-- A server that takes part in rooms with other servers. -/
structure Peer where
  identity : Identity
  /-- Whether requests that nothing answers count as errors. -/
  strict : Bool
  /-- The rooms that the peer holds, by their ids. -/
  rooms : Table String Room := []
  /-- The ids of the rooms to which aliases lead. -/
  aliases : Table String String := []
  /-- The versions of the rooms to which users of the peer were invited. -/
  invitedVersions : Table String RoomVersion := []
  /-- The requests that nothing answered, in the order in which they came. -/
  unexpected : List String := []
  /-- The entries of transactions that are no objects, in the order in which they came. -/
  malformed : List Json := []
  /-- The invites that were accepted. -/
  invites : List Event := []
  /-- The events that were accepted from transactions. -/
  pdus : List Event := []
  /-- The ephemeral messages of transactions. -/
  edus : List Json := []

namespace Peer

/-! ## Views -/

def serverName (p : Peer) : String := p.identity.serverName

def room? (p : Peer) (roomId : String) : Option Room := Table.find? roomId p.rooms

/-- The room to which an alias leads. -/
def resolve? (p : Peer) (name : String) : Option String := Table.find? name p.aliases

/-- The version of a room to which a user of the peer was invited. -/
def invitedVersion? (p : Peer) (roomId : String) : Option RoomVersion :=
  Table.find? roomId p.invitedVersions

/-- An event that some held room has recorded. -/
def event? (p : Peer) (id : String) : Option Event :=
  (Table.values p.rooms).findSome? (fun r => r.event? id)

/-- The room that a request names. -/
def knownRoom (p : Peer) (roomId : String) : Except Refusal Room :=
  match p.room? roomId with
  | some r => .ok r
  | none => .error (.notFound (.room roomId))

def userId (p : Peer) (localpart : String) : String := Ids.userId localpart p.serverName

/-! ## Changes -/

/-- Holds a room, in place of one with the same id. -/
def holdRoom (p : Peer) (r : Room) : Peer := { p with rooms := Table.insert r.roomId r p.rooms }

/-- Lets an alias of the peer lead to a room. Gives the alias. -/
def addAlias (p : Peer) (roomId localpart : String) : String × Peer :=
  let name := Ids.roomAlias localpart p.serverName
  (name, { p with aliases := Table.insert name roomId p.aliases })

/-- Forgets the events and messages that were seen, but nothing that was made of them. -/
def forgetSeen (p : Peer) : Peer := { p with invites := [], pdus := [], edus := [] }

/-! ## Rooms of the peer's own -/

/-- Makes a room with the events of these templates; `opaqueId` makes its id unique. -/
def makeRoom (p : Peer) (clock : Nat → Int) (opaqueId versionId : String)
    (templates : List EventTemplate) : Except EventError (Room × Peer) := do
  let r ← Room.create p.identity clock versionId (Ids.roomId opaqueId p.serverName) templates
  return (r, p.holdRoom r)

/-- Builds and signs an event on a room, which does not change. -/
def createEvent (p : Peer) (r : Room) (now : Int) (t : EventTemplate) :
    Except EventError Event := do
  return p.identity.signEvent (← r.build p.serverName now t)

end Peer

/-- A room as messages for people show it. -/
def Room.shown (r : Room) : String :=
  "RoomHandle \x7b room_id: " ++ Text.quoted r.roomId ++ ", version: " ++
    Text.quoted r.version.id ++ " \x7d"

end Homeserver
