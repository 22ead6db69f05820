/-
The state of a room as a replay of its timeline. A room keeps its state, its index, its timeline and
its depth side by side, each changed by a function of its own. Over every run of calls on an empty
room they say the same: a place of the state names the last event of the timeline that sets it, and
the depth is that of the deepest event.

What carries the proof is that the state follows from the list of recorded events (`Replays`); an
appended event stands last in that list, so it decides its own place and no other one.
-/
import Homeserver.Proofs.Room.State

namespace Homeserver

theorem Event.place?_eq_some {e : Event} {place : StateKey} :
    e.place? = some place ↔ e.type = place.type ∧ e.stateKey = some place.key := by
  unfold place?
  rw [Option.map_eq_some_iff]
  constructor
  · rintro ⟨key, hkey, rfl⟩
    exact ⟨rfl, hkey⟩
  · rintro ⟨htype, hkey⟩
    exact ⟨place.key, hkey, by rw [htype]⟩

namespace Room

/-! ## The last event at a place -/

/-- The last of these events that sets a place of the state. -/
def lastAt (place : StateKey) (l : List Event) : Option Event :=
  l.reverse.find? fun e => e.type = place.type ∧ e.stateKey = some place.key

theorem lastAt_concat (place : StateKey) (l : List Event) (e : Event) :
    lastAt place (l ++ [e]) = if e.place? = some place then some e else lastAt place l := by
  unfold lastAt
  rw [List.reverse_concat]
  by_cases h : e.place? = some place
  · rw [if_pos h, List.find?_cons_of_pos]
    simpa using Event.place?_eq_some.mp h
  · rw [if_neg h, List.find?_cons_of_neg]
    simpa using mt Event.place?_eq_some.mpr h

/-! ## Replaying -/

/-- Each place of the state names the last recorded event that sets it. -/
def Replays (r : Room) : Prop :=
  ∀ place, Table.find? place r.state = (lastAt place r.events).map Event.id

theorem Replays.append {r : Room} (hr : r.Replays) {e : Event} (he : r.Appends e) :
    (r.append e).Replays := by
  intro place
  rw [find?_state_append, events_append he.new, lastAt_concat]
  split
  · rfl
  · exact hr place

theorem Grows.replays {r s : Room} {l : List Event} (h : r.Grows l s) (hc : r.Consistent)
    (hr : r.Replays) : s.Replays :=
  (h.induction (P := Replays) (fun _ _ _ hr he => hr.append he) hc hr).2

/-- The state of every room that grew from an empty one is a replay of its events. -/
theorem replays_afterAll (roomId : String) (version : RoomVersion) (calls : List Call) :
    ((Room.new roomId version).afterAll calls).Replays := by
  obtain ⟨l, h⟩ := grows_afterAll (consistent_new roomId version).tips calls
  exact h.replays (consistent_new roomId version) fun _ => rfl

/-- The timeline lists the recorded events in the order in which they are kept. -/
theorem Consistent.timelineEvents_eq {r : Room} (hr : r.Consistent) :
    r.timelineEvents = r.events := by
  unfold timelineEvents
  rw [hr.recorded, List.filterMap_map]
  have hevent : ∀ e ∈ r.events, (r.event? ∘ Event.id) e = some e :=
    fun e he => hr.event?_of_mem he
  rw [List.filterMap_congr hevent]
  exact List.filterMap_some

/-- What a place of the state names is the last event of the list itself. -/
theorem Replays.stateEvent?_eq {r : Room} (hr : r.Replays) (hc : r.Consistent)
    (place : StateKey) : r.stateEvent? place = lastAt place r.events := by
  unfold stateEvent?
  rw [hr place]
  cases hlast : lastAt place r.events with
  | none => rfl
  | some e =>
    have he : e ∈ r.events := List.mem_reverse.mp (List.mem_of_find?_eq_some hlast)
    exact hc.event?_of_mem he

/-! ## The current state and the depth -/

/-- The current state holds one recorded event for each place that is set, and it is one that sets
the place. -/
theorem Settled.currentState_rows {r : Room} (hr : r.Settled) :
    List.Forall₂ (fun row e => e ∈ r.events ∧ e.id = row.2 ∧ e.type = row.1.type ∧
      e.stateKey = some row.1.key) r.state r.currentState := by
  have hrow : ∀ row ∈ r.state, ∃ e, r.event? row.2 = some e ∧ e.place? = some row.1 := by
    rintro ⟨place, id⟩ hm
    exact hr.placed place id (hr.sorted.find?_of_mem hm)
  unfold currentState Table.values
  generalize r.state = rows at hrow
  induction rows with
  | nil => exact .nil
  | cons row rows ih =>
    obtain ⟨⟨e, he, hplace⟩, hrows⟩ := List.forall_mem_cons.mp hrow
    obtain ⟨hm, hid⟩ := mem_of_event? he
    rw [List.map_cons, List.filterMap_cons_some he]
    exact .cons ⟨hm, hid, Event.place?_eq_some.mp hplace⟩ (ih hrows)

/-- The state of a room that any run of calls made of an empty one. Each place names the last event
of the timeline that sets it, and nothing if there is none. The current state lists, place by place
and each place once, the recorded event that the place names, which has the type and the key of the
place. A user's membership is that of the last membership event for the user. The depth is the
greatest one among the recorded events, and zero if there are none; if there are some, a forward
extremity has it. -/
theorem replay_of_run (roomId : String) (version : RoomVersion) (calls : List Call) :
    let r := (Room.new roomId version).afterAll calls
    (∀ place, Table.find? place r.state = (lastAt place r.timelineEvents).map Event.id) ∧
    ((Table.keys r.state).Nodup ∧ List.Forall₂ (fun row e => e ∈ r.events ∧ e.id = row.2 ∧
      e.type = row.1.type ∧ e.stateKey = some row.1.key) r.state r.currentState) ∧
    (∀ user, r.membership user = (lastAt (.member user) r.timelineEvents).bind Event.membership) ∧
    (∀ e ∈ r.events, e.depth ≤ r.depth) ∧ (r.isEmpty = true → r.depth = 0) ∧
    (r.isEmpty = false →
      ∃ e ∈ r.events, e.id ∈ r.forwardExtremities ∧ e.depth = r.depth) := by
  intro r
  have hr : r.Settled := settled_afterAll roomId version calls
  have hreplays : r.Replays := replays_afterAll roomId version calls
  rw [hr.timelineEvents_eq]
  refine ⟨hreplays, ⟨hr.sorted.nodup, hr.currentState_rows⟩, ?_, hr.depth_le, ?_, ?_⟩
  · intro user
    unfold membership
    rw [hreplays.stateEvent?_eq hr.toConsistent]
  · intro hempty
    exact hr.depth_nil (List.isEmpty_iff.mp hempty)
  · intro hempty
    obtain ⟨e, he, htip, hdepth⟩ := hr.deepest_tip (by simpa [isEmpty] using hempty)
    exact ⟨e, he, htip, hdepth⟩

end Room

end Homeserver
