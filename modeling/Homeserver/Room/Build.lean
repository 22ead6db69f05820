/-
Building events: a template gets its place in a room, after chosen parents and with the state that
authorises it.
-/
import Homeserver.Event.Template
import Homeserver.Room.Basic

namespace Homeserver

namespace Room

/-- The greatest depth, as depths have 64 bits with a sign. -/
def maxDepth : Int := 9223372036854775807

/-- One more than a depth, if there is such a depth. -/
def deeper (depth : Int) : Except EventError Int :=
  if depth < maxDepth then .ok (depth + 1) else .error .overflow

/-- One more than the depth of the deepest parent, all of which must be recorded. -/
def nextDepth (r : Room) (parents : List String) : Except EventError Int := do
  let depths ← parents.mapM (fun id =>
    match r.event? id with
    | some e => .ok e.depth
    | none => .error (.graph (.unknownParent id r.roomId)))
  deeper (depths.foldl max 0)

/-- A create event starts a room, and nothing else does. -/
def checkStart (r : Room) (t : EventTemplate) : Except EventError Unit :=
  if t.type = "m.room.create" then
    if r.isEmpty then .ok () else .error (.graph (.secondCreate r.roomId))
  else if (r.stateEvent? .create).isSome then .ok ()
  else .error (.missingState (.create r.roomId))

/-- The ids of the current state that authorise an event. -/
def authorising (r : Room) (t : EventTemplate) : List String :=
  (Authorisation.needed r.version t.type t.sender t.stateKey t.content).filterMap
    (fun place => Table.find? place r.state)

/-- The members that every event has. -/
def commonMembers (f : EventFields) : Members :=
  Table.ofList [
    ("room_id", .str f.roomId),
    ("sender", .str f.sender),
    ("type", .str f.type),
    ("content", f.content),
    ("prev_events", Json.ofStrings f.prevEvents),
    ("auth_events", Json.ofStrings f.authEvents),
    ("depth", .int f.depth),
    ("origin_server_ts", .int f.timestamp)]

/-- The JSON of an event with these fields, from a server. -/
def protoOf (version : RoomVersion) (f : EventFields) (origin : String) : Members :=
  let keyed := match f.stateKey with
    | some key => Table.insert "state_key" (.str key) (commonMembers f)
    | none => commonMembers f
  if version.updatedRedaction then keyed else Table.insert "origin" (.str origin) keyed

/-- Replaces members, and drops those that are replaced by null. -/
def applyOverrides (overrides proto : Members) : Members :=
  overrides.foldl (fun ms o => if o.2.isNull then Table.erase o.1 ms else Table.insert o.1 o.2 ms)
    proto

/-- Builds an event from a template on these parents, for a server at this time. -/
def buildOn (r : Room) (origin : String) (now : Int) (t : EventTemplate) (parents : List String) :
    Except EventError UnsignedEvent := do
  t.check r.version
  r.checkStart t
  let depth ← r.nextDepth parents
  let fields : EventFields := {
    roomId := r.roomId
    sender := t.sender
    type := t.type
    stateKey := t.stateKey
    content := t.content
    prevEvents := parents
    authEvents := r.authorising t
    depth
    timestamp := t.timestamp.getD now }
  let proto := applyOverrides t.overrides (protoOf r.version fields origin)
  return { version := r.version, fields, proto }

/-- Builds an event from a template on the forward extremities. -/
def build (r : Room) (origin : String) (now : Int) (t : EventTemplate) :
    Except EventError UnsignedEvent :=
  r.buildOn origin now t r.forwardExtremities

end Room

/-- The events with which a user starts a public room: its creation, the user's own membership, the
power levels and the join rule. -/
def initialEvents (version : RoomVersion) (creator : String) : List EventTemplate :=
  let create := Json.object ([("room_version", .str version.id)] ++
    (if version.namesCreator then [("creator", .str creator)] else []))
  let levels := Json.object [
    ("users", .obj [(creator, .int 100)]),
    ("users_default", .int 0),
    ("events_default", .int 0),
    ("state_default", .int 50),
    ("ban", .int 50),
    ("kick", .int 50),
    ("redact", .int 50),
    ("invite", .int 0)]
  [.state "m.room.create" creator "" create,
   .member creator creator "join",
   .state "m.room.power_levels" creator "" levels,
   .state "m.room.join_rules" creator "" (.obj [("join_rule", .str "public")])]

end Homeserver
