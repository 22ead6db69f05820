/-
Rooms joined through another server: what is known of them is the state before the join, the events
that authorise it, and the join itself.
-/
import Homeserver.Room.Append

namespace Homeserver.Room

/-- The events that a join brings along, in the order in which they are recorded. Of two events
with one id the one from the state counts. -/
def seeds (state authChain : List Event) : List Event :=
  let ids := state.map Event.id
  sortByDepth (authChain.filter (fun e => e.id ∉ ids) ++ state)

/-- A room seeded with these events, without extremities. -/
def seeded (roomId : String) (version : RoomVersion) (state authChain : List Event) : Room :=
  let recorded := (seeds state authChain).foldl recordNew (Room.new roomId version)
  state.foldl setState recorded

/-- The room after a join through another server, whose only forward extremity is the join. -/
def ofRemoteJoin (version : RoomVersion) (roomId : String) (state authChain : List Event)
    (join : Event) : Except EventError Room :=
  if join.roomId ≠ roomId then .error (.graph (.joinOfOtherRoom join.id join.roomId roomId))
  else
    let r := seeded roomId version state authChain
    if (r.stateEvent? .create).isNone then .error (.missingState (.createOfJoin roomId))
    else .ok { (r.setState join).record join with extremities := KeySet.ofList [join.id] }

end Homeserver.Room
