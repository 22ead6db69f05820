/-
Events that a room builds, signs and appends in one step. In a room that grew from an empty one the
graph has nothing against such an event: the room is as deep as its deepest forward extremity, so
what is built on all of them has the depth that appending asks for. Only an id that is recorded
already is in the way. If the event is appended, it comes to lie on top of the whole room.
-/
import Homeserver.Proofs.Room.State

namespace Homeserver.Room

/-! ## One step -/

section Settled

variable {r : Room} {s : Identity} {now : Int} {t : EventTemplate}

/-- What a settled room builds is appended once it is signed, unless its id is recorded. -/
theorem Settled.addEvent_built (hr : r.Settled) {u : UnsignedEvent}
    (hu : r.build s.serverName now t = .ok u) : r.addEvent (s.signEvent u) =
      if r.contains (s.signEvent u).id then
        .error (.graph (.duplicate (s.signEvent u).id r.roomId))
      else .ok (r.append (s.signEvent u)) := by
  obtain ⟨-, -, hlt, rfl⟩ := hr.build_iff.mp hu
  generalize he : s.signEvent (r.built s.serverName now t (r.depth + 1)) = e
  have hroom : e.roomId = r.roomId := he ▸ rfl
  have hprev : e.prevEvents = r.forwardExtremities := he ▸ rfl
  have hdepth : e.depth = r.depth + 1 := he ▸ rfl
  cases hid : r.contains e.id with
  | true =>
    have hnew : r.checkNew e = .error (.graph (.duplicate e.id r.roomId)) := by
      unfold checkNew
      rw [if_neg (not_not.mpr hroom), if_pos hid]
    unfold addEvent
    rw [hnew]
    rfl
  | false =>
    refine addEvent_ok.mpr
      ⟨⟨hroom, hid, fun hroot => ?_, ?_, hdepth ▸ hlt⟩, fun p hp => hprev ▸ hp, rfl⟩
    · -- a room with events has an extremity on which the event would stand
      by_contra hne
      exact hr.extremities_ne_nil hne (hprev ▸ hroot)
    · rw [hdepth, hr.deepestParent_tips hprev]

/-- Building, signing and appending fails with the error of the build, or because the id of the
event is recorded. -/
theorem Settled.createAndAdd_eq (hr : r.Settled) : r.createAndAdd s now t =
    match r.build s.serverName now t with
    | .error err => .error err
    | .ok u =>
      if r.contains (s.signEvent u).id then
        .error (.graph (.duplicate (s.signEvent u).id r.roomId))
      else .ok (s.signEvent u, r.append (s.signEvent u)) := by
  unfold createAndAdd
  cases hu : r.build s.serverName now t with
  | error err => rfl
  | ok u =>
    show (do let next ← r.addEvent (s.signEvent u); return (s.signEvent u, next)) = _
    rw [hr.addEvent_built hu]
    dsimp only
    split <;> rfl

theorem Settled.createAndAdd_error_iff (hr : r.Settled) :
    (∃ err, r.createAndAdd s now t = .error err) ↔
      (∃ err, r.build s.serverName now t = .error err) ∨
        ∃ u, r.build s.serverName now t = .ok u ∧ r.contains (s.signEvent u).id = true := by
  rw [hr.createAndAdd_eq]
  cases r.build s.serverName now t with
  | error err => simp
  | ok u => cases hid : r.contains (s.signEvent u).id <;> simp [hid]

end Settled

/-! ## On top of a room -/

/-- A room came from another one by an event that lies on top of it: the event follows all that were
forward extremities and is deeper than the room was, and is the only extremity and the latest event
from then on. -/
structure Tops (r : Room) (e : Event) (next : Room) : Prop where
  parents : e.prevEvents = r.forwardExtremities
  depth : e.depth = r.depth + 1
  tips : next.forwardExtremities = [e.id]
  latest : next.latest? = some e
  deeper : next.depth = r.depth + 1
  timeline : next.timeline = r.timeline ++ [e.id]
  /-- What was recorded is recorded as it was, and nothing but the event is new. -/
  events : next.events = r.events ++ [e]

theorem latest?_append (r : Room) (e : Event) : (r.append e).latest? = some e := by
  unfold latest?
  rw [timeline_append, List.getLast?_concat, Option.bind_some, event?_append, if_pos rfl]

theorem tops_append {r : Room} {e : Event} (hnew : r.contains e.id = false)
    (hprev : e.prevEvents = r.forwardExtremities) (hdepth : e.depth = r.depth + 1) :
    r.Tops e (r.append e) where
  parents := hprev
  depth := hdepth
  tips := extremities_append_tips hprev
  latest := latest?_append r e
  deeper := by
    rw [depth_append]
    omega
  timeline := timeline_append r e
  events := events_append hnew

/-- Building, signing and appending an event in a room that any run of calls made of an empty one.
It fails exactly if the build fails or the id of the signed event is recorded, and then the room
stays as it is. If it succeeds, the event is the one that was built and signed, and it lies on top
of the room. -/
theorem createAndAdd_tops (roomId : String) (version : RoomVersion) (calls : List Call)
    (s : Identity) (now : Int) (t : EventTemplate) :
    let r := (Room.new roomId version).afterAll calls
    ((∃ err, r.createAndAdd s now t = .error err) ↔
      (∃ err, r.build s.serverName now t = .error err) ∨
        ∃ u, r.build s.serverName now t = .ok u ∧ r.contains (s.signEvent u).id = true) ∧
    (∀ e next, r.createAndAdd s now t = .ok (e, next) →
      (∃ u, r.build s.serverName now t = .ok u ∧ e = s.signEvent u) ∧
        r.after (.create s now t) = next ∧ r.Tops e next) ∧
    ∀ err, r.createAndAdd s now t = .error err → r.after (.create s now t) = r := by
  intro r
  have hr : r.Settled := settled_afterAll roomId version calls
  refine ⟨hr.createAndAdd_error_iff, fun e next h => ?_, fun err h => ?_⟩
  · obtain ⟨⟨u, hu, rfl⟩, hadd⟩ := createAndAdd_ok h
    obtain ⟨hfits, -, rfl⟩ := addEvent_ok.mp hadd
    obtain ⟨-, -, -, hu'⟩ := hr.build_iff.mp hu
    refine ⟨⟨u, hu, rfl⟩, after_create_of_ok h, ?_⟩
    refine tops_append hfits.new ?_ ?_
    · subst hu'
      rfl
    · subst hu'
      rfl
  · exact after_create_of_error h

end Homeserver.Room
