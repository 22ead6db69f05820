/-
What other servers look up at a peer: its keys, the rooms behind its aliases, and recorded events.
-/
import Homeserver.Net.Form
import Homeserver.Peer.Basic
import Homeserver.Room.Walk

namespace Homeserver

/-- A query that has a parameter not exactly once. -/
inductive MisreadQuery where
  | missing (name : String)
  | duplicate (name : String)
  deriving DecidableEq, Repr

namespace Peer

/-! ## Keys and aliases -/

/-- The peer's signed key document. -/
def keyDocument (p : Peer) (now : Int) : Except Refusal Json :=
  (p.identity.keyDocument now).mapError Refusal.ofEvent

/-- The value of a parameter that a query must have exactly once. -/
def onlyParameter (query : List Char) (name : String) : Except MisreadQuery String :=
  match (Form.decode query).filter (fun pair => pair.1 = name) with
  | [] => .error (.missing name)
  | [(_, value)] => .ok value
  | _ => .error (.duplicate name)

/-- The room behind an alias. -/
def lookUpAlias (p : Peer) (name : String) : Except Refusal Json :=
  match p.resolve? name with
  | some roomId => .ok (Json.object [
      ("room_id", .str roomId), ("servers", Json.ofStrings [p.serverName])])
  | none => .error (.notFound (.roomAlias name))

/-! ## Events -/

/-- A recorded event. -/
def lookUpEvent (p : Peer) (now : Int) (id : String) : Except Refusal Json :=
  match p.event? id with
  | some e => .ok (Json.object [
      ("origin", .str p.serverName), ("origin_server_ts", .int now), ("pdus", .arr [e.json])])
  | none => .error (.notFound (.event id))

/-- A list of event ids in the body of a request. -/
def readEventIds (body : Json) (key : String) : Except Refusal (List String) := do
  let some items := (body.get? key).bind Json.array? | throw (.badJson (.missing key))
  let some ids := items.mapM Json.string? | throw (.badJson (.notEventIds key))
  return ids

/-- How many events are found unless a request says otherwise. -/
def missingEventsLimit : Nat := 10

/-- The events between those that another server has and the latest ones that it knows of. -/
def lookUpMissing (p : Peer) (roomId : String) (body : Option Json) : Except Refusal Json := do
  let r ← p.knownRoom roomId
  let some body := body | throw .bodyNotJson
  let earliest ← readEventIds body "earliest_events"
  let latest ← readEventIds body "latest_events"
  let limit := ((body.get? "limit").bind Json.nat?).getD missingEventsLimit
  let minDepth := ((body.get? "min_depth").bind Json.int?).getD 0
  let events := r.eventsBetween earliest latest limit minDepth
  return Json.object [("events", .arr (events.map Event.json))]

end Peer

end Homeserver
