/-
Rooms: the events of a room that this server knows, as a graph. A room grows by recording events;
what is recorded is never taken back.
-/
import Homeserver.Event.Authorisation
import Homeserver.Event.Basic

namespace Homeserver

/-- A room as this server sees it. -/
structure Room where
  roomId : String
  version : RoomVersion
  /-- The recorded events, of which no two have one id. -/
  events : List Event
  /-- The ids of the events in the order in which they were recorded. -/
  timeline : List String
  /-- The ids of the recorded events on which new ones are built. -/
  extremities : KeySet String
  /-- The id of the event that last set each place of the state. -/
  state : Table StateKey String
  /-- The greatest depth recorded, and zero before there is any. -/
  depth : Int
  deriving Repr

namespace Room

/-- A room without events. -/
def new (roomId : String) (version : RoomVersion) : Room :=
  ⟨roomId, version, [], [], [], [], 0⟩

/-! ## Views -/

/-- The recorded event with this id. -/
def event? (r : Room) (id : String) : Option Event := r.events.find? (fun e => e.id = id)

def contains (r : Room) (id : String) : Bool := (r.event? id).isSome

def isEmpty (r : Room) : Bool := r.events.isEmpty

/-- The recorded events in the order of the timeline. -/
def timelineEvents (r : Room) : List Event := r.timeline.filterMap r.event?

def latest? (r : Room) : Option Event := r.timeline.getLast?.bind r.event?

/-- The ids of the forward extremities, in increasing order. -/
def forwardExtremities (r : Room) : List String := r.extremities.toList

/-- The event that last set this place of the state. -/
def stateEvent? (r : Room) (place : StateKey) : Option Event :=
  (Table.find? place r.state).bind r.event?

/-- The events of the current state, in the order of their places. -/
def currentState (r : Room) : List Event := (Table.values r.state).filterMap r.event?

/-- A user's membership in the current state. -/
def membership (r : Room) (user : String) : Option String :=
  (r.stateEvent? (.member user)).bind Event.membership

/-- The types of state that users see who are not in the room. -/
def strippedTypes : List String :=
  ["m.room.create", "m.room.join_rules", "m.room.canonical_alias", "m.room.name",
    "m.room.avatar", "m.room.encryption"]

/-- The state that users see who are not in the room. -/
def strippedState (r : Room) : List Json :=
  (strippedTypes.filterMap (fun type => r.stateEvent? ⟨type, ""⟩)).map Event.stripped

/-! ## Recording -/

/-- Records an event at the end of the timeline, in place of one with the same id. -/
def record (r : Room) (e : Event) : Room :=
  { r with
    events := r.events.filter (fun f => f.id ≠ e.id) ++ [e]
    timeline := r.timeline ++ [e.id]
    depth := max r.depth e.depth }

/-- Records an event unless one with its id is recorded. -/
def recordNew (r : Room) (e : Event) : Room := if r.contains e.id then r else r.record e

/-- Lets a state event set its place. -/
def setState (r : Room) (e : Event) : Room :=
  match e.stateKey with
  | some key => { r with state := Table.insert ⟨e.type, key⟩ e.id r.state }
  | none => r

/-! ## Order -/

/-- Events are ordered by depth, and at one depth by id. -/
def depthOrder (a b : Event) : Bool :=
  a.depth < b.depth || (a.depth == b.depth && !Key.before b.id a.id)

/-- The events in the order of depth and id. -/
def sortByDepth (events : List Event) : List Event := events.mergeSort depthOrder

end Room

end Homeserver
