/-
How often a room lists an event. An event that is appended is new, so it is listed once. The events
that come along with a join are given to the room one by one, and each that is there already is left
out. The join itself is recorded after them, and nothing asks whether it came along as well: if an
event with its id did, the timeline lists the join twice, and does so for good. All other events are
listed once.
-/
import Homeserver.Proofs.Room.Seeding

namespace Homeserver.Room

/-! ## Listed events -/

/-- The timeline lists recorded events only. -/
def Lists (r : Room) : Prop := ∀ id ∈ r.timeline, r.contains id = true

/-- The events of the timeline have the ids that it lists. -/
theorem Lists.ids_timelineEvents {r : Room} (h : r.Lists) :
    r.timelineEvents.map Event.id = r.timeline := by
  have hid : ∀ id ∈ r.timeline, (r.event? id).map Event.id = some id := by
    intro id hid
    obtain ⟨e, he⟩ := event?_isSome (h id hid)
    rw [he, Option.map_some, (mem_of_event? he).2]
  unfold timelineEvents
  rw [List.map_filterMap, List.filterMap_congr hid, List.filterMap_some]

theorem Lists.append {r : Room} (h : r.Lists) (e : Event) : (r.append e).Lists := by
  intro id hid
  rw [timeline_append, List.mem_append, List.mem_singleton] at hid
  exact (contains_append r e id).mpr (hid.symm.imp Eq.symm (h id))

section Grows

variable {r s : Room} {l : List Event}

theorem Grows.lists (h : r.Grows l s) (hr : r.Lists) : s.Lists := by
  induction h with
  | refl => exact hr
  | append _ _ ih => exact ih.append _

/-- As a room grows, what it had stays listed as often as it was, and what is new is listed once. -/
theorem Grows.count_timeline (h : r.Grows l s) (hr : r.Lists) {id : String}
    (hid : s.contains id = true) :
    s.timeline.count id = if r.contains id = true then r.timeline.count id else 1 := by
  induction h with
  | refl => rw [if_pos hid]
  | @append l s e h he ih =>
    rw [timeline_append, List.count_append, List.count_singleton]
    by_cases heq : e.id = id
    · -- the id is new, so it was neither recorded nor listed before
      subst heq
      have hold : ¬ s.contains e.id = true := by rw [he.new]; exact Bool.false_ne_true
      have hzero : s.timeline.count e.id = 0 :=
        List.count_eq_zero.mpr fun hm => hold (h.lists hr _ hm)
      have hr' : ¬ r.contains e.id = true := fun hc => hold (h.contains_iff.mpr (.inl hc))
      rw [hzero, if_neg hr', if_pos (beq_self_eq_true _)]
    · have hs : s.contains id = true := ((contains_append s e id).mp hid).resolve_left heq
      have hother : ¬ (e.id == id) = true := mt beq_iff_eq.mp heq
      rw [ih hs, if_neg hother, Nat.add_zero]

end Grows

/-! ## Joined rooms -/

section Joined

variable {version : RoomVersion} {roomId : String} {state chain : List Event} {join : Event}
  {r : Room}

theorem lists_ofRemoteJoin (h : ofRemoteJoin version roomId state chain join = .ok r) :
    r.Lists := by
  obtain ⟨kept, hkept, htimeline⟩ := timeline_ofRemoteJoin h
  intro id hid
  rw [htimeline, List.mem_append, hkept.ids, mem_ids_seeds] at hid
  rw [contains_ofRemoteJoin h, List.map_append]
  exact List.mem_append.mpr hid

/-- A joined room lists each id once that came along, and the join once more. -/
theorem count_timeline_ofRemoteJoin (h : ofRemoteJoin version roomId state chain join = .ok r)
    {id : String} (hid : r.contains id = true) : r.timeline.count id =
      if id = join.id ∧ join.id ∈ (state ++ chain).map Event.id then 2 else 1 := by
  obtain ⟨kept, hkept, htimeline⟩ := timeline_ofRemoteJoin h
  rw [contains_ofRemoteJoin h, List.map_append, List.mem_append, List.map_singleton,
    List.mem_singleton] at hid
  rw [htimeline, List.count_append, hkept.nodup.count, List.count_singleton]
  simp only [hkept.ids, mem_ids_seeds, beq_iff_eq]
  by_cases hjoin : id = join.id
  · subst hjoin
    by_cases hsent : join.id ∈ (state ++ chain).map Event.id
    · rw [if_pos hsent, if_pos rfl, if_pos ⟨rfl, hsent⟩]
    · rw [if_neg hsent, if_pos rfl, if_neg fun h => hsent h.2]
  · rw [if_pos (hid.resolve_right hjoin), if_neg (Ne.symm hjoin), if_neg fun h => hjoin h.1]

/-- As it grows, a joined room lists the join twice if an event with its id came along, and every
other event once. -/
theorem count_timeline_grown (h : ofRemoteJoin version roomId state chain join = .ok r)
    {l : List Event} {s : Room} (hl : r.Grows l s) {id : String} (hid : s.contains id = true) :
    s.timeline.count id =
      if id = join.id ∧ join.id ∈ (state ++ chain).map Event.id then 2 else 1 := by
  rw [hl.count_timeline (lists_ofRemoteJoin h) hid]
  by_cases hr : r.contains id = true
  · rw [if_pos hr, count_timeline_ofRemoteJoin h hr]
  · -- the join has been recorded from the start
    have hne : id ≠ join.id := by
      rintro rfl
      exact hr (contains_join h)
    rw [if_neg hr, if_neg fun h => hne h.1]

theorem nodup_timeline_grown (h : ofRemoteJoin version roomId state chain join = .ok r)
    {l : List Event} {s : Room} (hl : r.Grows l s) :
    s.timeline.Nodup ↔ join.id ∉ (state ++ chain).map Event.id := by
  have hlists := hl.lists (lists_ofRemoteJoin h)
  constructor
  · intro hnodup hsent
    have hjoin : s.contains join.id = true :=
      hl.contains_iff.mpr (.inl (contains_join h))
    have htwice := count_timeline_grown h hl hjoin
    rw [if_pos ⟨rfl, hsent⟩] at htwice
    have := List.nodup_iff_count_le_one.mp hnodup join.id
    omega
  · intro hsent
    refine List.nodup_iff_count_le_one.mpr fun id => ?_
    by_cases hid : id ∈ s.timeline
    · rw [count_timeline_grown h hl (hlists id hid), if_neg fun h => hsent h.2]
    · rw [List.count_eq_zero.mpr hid]
      exact Nat.zero_le 1

end Joined

/-- How often a joined room lists an event that it has recorded, after any run of calls: twice if it
is the join and an event with its id came along, and once otherwise. So the timeline repeats no event
iff none of the state and the auth chain has the id of the join. -/
theorem count_timeline_afterAll {version : RoomVersion} {roomId : String} {state chain : List Event}
    {join : Event} {r : Room} (h : ofRemoteJoin version roomId state chain join = .ok r)
    (calls : List Call) :
    (∀ e ∈ (r.afterAll calls).events,
      ((r.afterAll calls).timelineEvents.map Event.id).count e.id =
        if e.id = join.id ∧ join.id ∈ (state ++ chain).map Event.id then 2 else 1) ∧
    (((r.afterAll calls).timelineEvents.map Event.id).Nodup ↔
      join.id ∉ (state ++ chain).map Event.id) := by
  obtain ⟨l, hl⟩ := grows_afterAll (Origin.joined h).anchored calls
  rw [(hl.lists (lists_ofRemoteJoin h)).ids_timelineEvents]
  refine ⟨fun e he => ?_, nodup_timeline_grown h hl⟩
  exact count_timeline_grown h hl (contains_iff.mpr (List.mem_map_of_mem he))

/-- A room that was joined without the parent of its join repeats no event, nor does it when the
parent comes in. -/
theorem count_timeline_of_merge :
    ofRemoteJoin .default "!r:a" [creationSeed] [] earlyJoin = .ok lackingRoom ∧
      ((lackingRoom.afterAll [.fork lateParent, .add mergeOfLate]).timelineEvents.map
        Event.id).Nodup := by
  refine ⟨ofRemoteJoin_lackingRoom, ?_⟩
  obtain ⟨-, hnodup⟩ := count_timeline_afterAll ofRemoteJoin_lackingRoom
    [.fork lateParent, .add mergeOfLate]
  exact hnodup.mpr (by decide)

/-- A join that the other server sends along as a part of the state is listed twice. -/
theorem join_sent_along_listed_twice :
    ∃ r, ofRemoteJoin .default "!r:a" [made creating, made joining] [] (made joining) = .ok r ∧
      Event.ofPdu .default (made creating).json = .ok (made creating) ∧
      Event.ofPdu .default (made joining).json = .ok (made joining) ∧
      made joining ∈ r.events ∧
      (r.timelineEvents.map Event.id).count (made joining).id = 2 := by
  obtain ⟨r, hjoined⟩ : ∃ r, ofRemoteJoin .default "!r:a" [made creating, made joining] []
      (made joining) = .ok r :=
    exists_ofRemoteJoin_iff.mpr ⟨rfl, made creating, List.mem_cons_self, rfl, rfl⟩
  have hrecorded := (mem_of_event? (ofRemoteJoin_ok hjoined).2).1
  refine ⟨r, hjoined, ofPdu_made rfl rfl, ofPdu_made rfl rfl, hrecorded, ?_⟩
  rw [(lists_ofRemoteJoin hjoined).ids_timelineEvents,
    count_timeline_ofRemoteJoin hjoined (contains_join hjoined)]
  exact if_pos ⟨rfl, by simp⟩

end Homeserver.Room
