/-
Appending events to a room. An event whose parents are all extremities extends the room; one whose
parents are recorded forks it. Both must be new, belong to the room and have the depth that their
parents give them.
-/
import Homeserver.Room.Build

namespace Homeserver.Room

/-! ## Checks -/

/-- The event belongs to the room, is not recorded, and has parents unless it is the first. -/
def checkNew (r : Room) (e : Event) : Except EventError Unit :=
  if e.roomId ≠ r.roomId then .error (.graph (.otherRoom e.id e.roomId r.roomId))
  else if r.contains e.id then .error (.graph (.duplicate e.id r.roomId))
  else if e.prevEvents.isEmpty ∧ !r.isEmpty then .error (.graph (.secondRoot e.id r.roomId))
  else .ok ()

/-- All parents are forward extremities. -/
def checkExtremities (r : Room) (e : Event) : Except EventError Unit :=
  match e.prevEvents.find? (fun id => !r.extremities.has id) with
  | some stale => .error (.graph (.staleParentOf stale e.id r.roomId))
  | none => .ok ()

/-- All parents are recorded. -/
def checkRecorded (r : Room) (e : Event) : Except EventError Unit :=
  match e.prevEvents.find? (fun id => !r.contains id) with
  | some unknown => .error (.graph (.unknownParentOf unknown e.id r.roomId))
  | none => .ok ()

/-- The depth of the deepest recorded parent of an event, and zero if there is none. -/
def deepestParent (r : Room) (e : Event) : Int :=
  ((e.prevEvents.filterMap r.event?).map Event.depth).max?.getD 0

/-- The event is one deeper than its deepest parent. -/
def checkDepth (r : Room) (e : Event) : Except EventError Unit := do
  let expected ← deeper (r.deepestParent e)
  if e.depth = expected then .ok ()
  else .error (.graph (.wrongDepth e.id e.depth expected))

/-! ## Appending -/

/-- Makes an event a forward extremity in place of its parents, lets it set its place in the state
and records it. -/
def append (r : Room) (e : Event) : Room :=
  let next : Room := { r with
    extremities := KeySet.add e.id (KeySet.removeAll e.prevEvents r.extremities) }
  (next.setState e).record e

/-- Appends an event on top of forward extremities. -/
def addEvent (r : Room) (e : Event) : Except EventError Room := do
  r.checkNew e
  r.checkExtremities e
  r.checkDepth e
  return r.append e

/-- Appends an event whose parents may be any recorded events. -/
def addForkEvent (r : Room) (e : Event) : Except EventError Room := do
  r.checkNew e
  r.checkRecorded e
  r.checkDepth e
  return r.append e

/-- Builds an event on the forward extremities, signs it and appends it. -/
def createAndAdd (r : Room) (s : Identity) (now : Int) (t : EventTemplate) :
    Except EventError (Event × Room) := do
  let e := s.signEvent (← r.build s.serverName now t)
  let next ← r.addEvent e
  return (e, next)

/-- Builds an event of each template, signs it and appends it, each at its own time. -/
def createEach (r : Room) (s : Identity) :
    List (Int × EventTemplate) → Except EventError (List Event × Room)
  | [] => .ok ([], r)
  | (now, t) :: rest => do
    let (e, next) ← r.createAndAdd s now t
    let (made, last) ← next.createEach s rest
    return (e :: made, last)

/-- A room of a version with the events of these templates, in order; the clock shows the time when
the template of a number has its turn. -/
def create (s : Identity) (clock : Nat → Int) (versionId roomId : String)
    (templates : List EventTemplate) : Except EventError Room := do
  let version ← RoomVersion.ofId versionId
  let (_, r) ← (Room.new roomId version).createEach s (templates.mapIdx (fun i t => (clock i, t)))
  return r

end Homeserver.Room
