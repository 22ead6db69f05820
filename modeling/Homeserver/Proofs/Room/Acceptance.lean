/-
Which of the events that a room builds are accepted from their JSON. A template is checked for its
content only, while a received event is checked as a whole: its depth and its time must be integers
that the version admits as well. The depth is so in every room that one can get to see. The time is
taken from the template as it is, so a template with a time beyond that range gives an event that no
server accepts.
-/
import Homeserver.Proofs.Room.Creation
import Homeserver.Proofs.Room.InStep

namespace Homeserver

namespace Room

/-! ## Rooms that grew from an empty one -/

/-- A room is no deeper than the number of its events. -/
theorem depth_le_length (roomId : String) (version : RoomVersion) (calls : List Call) :
    let r := (Room.new roomId version).afterAll calls
    r.depth ≤ r.events.length := by
  obtain ⟨l, hl⟩ := grows_afterAll (consistent_new roomId version).tips calls
  have hsettled := settled_new roomId version
  have hstep : ∀ (r : Room) (e : Event), r.Consistent →
      r.Settled ∧ r.depth ≤ r.events.length → r.Appends e →
      (r.append e).Settled ∧ (r.append e).depth ≤ (r.append e).events.length := by
    rintro r e - ⟨hr, hle⟩ he
    have hdeepest := hr.deepestParent_le he
    have hdepth := he.depth
    refine ⟨hr.append he, ?_⟩
    rw [depth_append, events_append he.new, List.length_append, List.length_singleton]
    omega
  exact (hl.induction hstep hsettled.toConsistent ⟨hsettled, Int.le_refl 0⟩).2.2

/-- What a room builds of a template that is checked is accepted from its signed JSON, as the event
that it is, iff the time of the template is one that the version admits. The depth that the room
gives it only counts in a room of more events than there are admitted integers. -/
theorem ofPdu_build_iff (roomId : String) (version : RoomVersion) (calls : List Call)
    (s : Identity) (now : Int) {t : EventTemplate} (ht : t.Sound) (hraw : t.raw = false) :
    let r := (Room.new roomId version).afterAll calls
    ((r.events.length : Int) < Json.maxSafeInteger → version.Admits (r.depth + 1)) ∧
      ∀ u, r.build s.serverName now t = .ok u → ∀ e,
        Event.ofPdu version (s.signEvent u).json = .ok e ↔
          e = s.signEvent u ∧ version.Admits (r.depth + 1) ∧
            version.Admits (t.timestamp.getD now) := by
  intro r
  have hr : r.Settled := settled_afterAll roomId version calls
  have hversion : r.version = version := version_afterAll (Room.new roomId version) calls
  refine ⟨fun hfew => RoomVersion.Admits.of_safe ?_ version, fun u hu e => ?_⟩
  · have hle : r.depth ≤ r.events.length := depth_le_length roomId version calls
    have hnonneg := hr.depth_nonneg
    unfold Json.Safe
    unfold Json.maxSafeInteger at hfew ⊢
    omega
  · obtain ⟨hu', hproto, hobject, hstrict⟩ := build_checked ht hraw hu
    obtain ⟨-, -, -, rfl⟩ := hr.build_iff.mp hu
    rw [← hversion]
    exact ofPdu_signEvent_iff hproto hobject hstrict s

/-! ### The last time and the one after it -/

/-- The start of a room at a time. -/
def startingAt (time : Int) : EventTemplate :=
  (EventTemplate.state "m.room.create" "@u:a" "" (.obj [])).atTime time

theorem build_startingAt (time : Int) : (Room.new "!r:a" .default).build "a" 1 (startingAt time) =
    .ok ((Room.new "!r:a" .default).built "a" 1 (startingAt time) 1) := rfl

theorem ofPdu_build_of_lastTime : (startingAt Json.maxSafeInteger).Sound ∧
    (startingAt Json.maxSafeInteger).raw = false ∧
    ∃ u, (Room.new "!r:a" .default).build "a" 1 (startingAt Json.maxSafeInteger) = .ok u ∧
      Event.ofPdu .default (maker.signEvent u).json = .ok (maker.signEvent u) := by
  have hsound : (startingAt Json.maxSafeInteger).Sound := fun _ => rfl
  obtain ⟨hfew, haccepted⟩ := ofPdu_build_iff "!r:a" .default [] maker 1 hsound rfl
  refine ⟨hsound, rfl, _, build_startingAt _, ?_⟩
  refine (haccepted _ (build_startingAt _) _).mpr ⟨rfl, hfew (by decide), ?_⟩
  exact RoomVersion.Admits.of_safe ⟨by decide, by decide⟩ _

/-- One millisecond later the same event is built, but no server accepts it. -/
theorem later_start_unacceptable : (startingAt (Json.maxSafeInteger + 1)).Sound ∧
    (startingAt (Json.maxSafeInteger + 1)).raw = false ∧
    ∃ u, (Room.new "!r:a" .default).build "a" 1 (startingAt (Json.maxSafeInteger + 1)) = .ok u ∧
      ∀ e, Event.ofPdu .default (maker.signEvent u).json ≠ .ok e := by
  refine ⟨fun _ => rfl, rfl, _, build_startingAt _, fun e h => ?_⟩
  have hcontent : (Json.obj []).Strict := Json.strict_obj.mpr fun _ h => nomatch h
  obtain ⟨-, -, htime⟩ :=
    (ofPdu_signEvent_iff (by rfl) (by rfl) (fun _ => hcontent) maker).mp h
  exact absurd htime.2 (by decide)

end Room

end Homeserver
