/-
Walks through a room's graph: back along the authorisations of events, and back along their
parents. A walk keeps the ids it has seen, and ends because each event it visits was recorded and
not seen before.
-/
import Homeserver.Room.Basic

namespace Homeserver.Room

/-! ## Events not yet seen -/

/-- How many recorded events have an id that is not among these. -/
def unseen (r : Room) (seen : List String) : Nat :=
  (r.events.filter (fun e => e.id ∉ seen)).length

theorem unseen_cons (r : Room) (id : String) (seen : List String) : r.unseen (id :: seen) =
    ((r.events.filter (fun e => e.id ∉ seen)).filter (fun e => e.id ≠ id)).length := by
  unfold unseen
  simp only [List.filter_filter, List.mem_cons, not_or, Bool.decide_and, ne_eq]

theorem unseen_cons_le (r : Room) (id : String) (seen : List String) :
    r.unseen (id :: seen) ≤ r.unseen seen := by
  rw [unseen_cons]
  exact List.length_filter_le _ _

/-- Seeing a recorded event leaves fewer events unseen. -/
theorem unseen_cons_lt {r : Room} {id : String} {seen : List String} {e : Event}
    (he : r.event? id = some e) (hid : id ∉ seen) : r.unseen (id :: seen) < r.unseen seen := by
  have hm := List.mem_of_find?_eq_some he
  have hi : e.id = id := by simpa using List.find?_some he
  rw [unseen_cons]
  refine List.length_filter_lt_length_iff_exists.mpr ⟨e, List.mem_filter.mpr ⟨hm, ?_⟩, ?_⟩
  · rw [hi]
    exact decide_eq_true hid
  · rw [hi]
    simp

/-! ## Authorisations -/

/-- Visits these ids and, breadth first, all that authorises their events. -/
def visitAuth (r : Room) (seen : List String) : List String → List Event
  | [] => []
  | id :: queue =>
    if _ : id ∈ seen then visitAuth r seen queue
    else
      match _ : r.event? id with
      | none => visitAuth r (id :: seen) queue
      | some e => e :: visitAuth r (id :: seen) (queue ++ e.authEvents)
termination_by queue => (r.unseen seen, queue.length)
decreasing_by
  · exact Prod.Lex.right _ (by simp)
  · rcases Nat.lt_or_eq_of_le (unseen_cons_le r id seen) with h | h
    · exact Prod.Lex.left _ _ h
    · rw [h]; exact Prod.Lex.right _ (by simp)
  · exact Prod.Lex.left _ _ (unseen_cons_lt (by assumption) (by assumption))

/-- The recorded events among these ids and all recorded events that authorise them, directly or
through others, in the order of depth and id. -/
def authChain (r : Room) (ids : List String) : List Event := sortByDepth (visitAuth r [] ids)

/-! ## Parents -/

/-- Visits, breadth first, the events of a queue and the parents of those it visits, but none in
`stop` and none of a depth below `minDepth`, until it has visited `limit` of them. -/
def visitParents (r : Room) (stop : List String) (minDepth : Int) :
    Nat → List String → List String → List Event
  | _, _, [] => []
  | limit, seen, id :: queue =>
    if limit = 0 then []
    else if id ∈ stop then visitParents r stop minDepth limit seen queue
    else if _ : id ∈ seen then visitParents r stop minDepth limit seen queue
    else
      match _ : r.event? id with
      | none => visitParents r stop minDepth limit (id :: seen) queue
      | some e =>
        if e.depth < minDepth then visitParents r stop minDepth limit (id :: seen) queue
        else e :: visitParents r stop minDepth (limit - 1) (id :: seen) (queue ++ e.prevEvents)
termination_by _ seen queue => (r.unseen seen, queue.length)
decreasing_by
  · exact Prod.Lex.right _ (by simp)
  · exact Prod.Lex.right _ (by simp)
  · rcases Nat.lt_or_eq_of_le (unseen_cons_le r id seen) with h | h
    · exact Prod.Lex.left _ _ h
    · rw [h]; exact Prod.Lex.right _ (by simp)
  · exact Prod.Lex.left _ _ (unseen_cons_lt (by assumption) (by assumption))
  · exact Prod.Lex.left _ _ (unseen_cons_lt (by assumption) (by assumption))

/-- The events before the latest ones, back to the earliest ones and no further, in the order of
depth and id. At most `limit` events are found, those nearest to the latest ones first; none has a
depth below `minDepth`. -/
def eventsBetween (r : Room) (earliest latest : List String) (limit : Nat) (minDepth : Int) :
    List Event :=
  let queue := (latest.filterMap r.event?).flatMap Event.prevEvents
  sortByDepth (visitParents r earliest minDepth limit latest queue)

end Homeserver.Room
