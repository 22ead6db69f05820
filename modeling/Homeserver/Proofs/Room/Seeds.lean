/-
What a room recorded when it was joined through another server, event by event, and which room those
events belong to. What is appended to a room must be of the room, and so must the join itself; of
the state and the auth chain that the other server sends along nothing is asked. So a room that was
joined holds events of other rooms iff it was given some, and no later event changes that.
-/
import Homeserver.Proofs.Room.Creation
import Homeserver.Proofs.Room.Tips

namespace Homeserver.Room

/-! ## Recording -/

theorem nodup_record {r : Room} (h : (r.events.map Event.id).Nodup) (e : Event) :
    ((r.record e).events.map Event.id).Nodup := by
  show ((r.events.filter (fun f => f.id ≠ e.id) ++ [e]).map Event.id).Nodup
  rw [List.map_append, List.nodup_append]
  refine ⟨h.sublist (List.filter_sublist.map _), List.nodup_singleton _, ?_⟩
  intro a ha b hb
  obtain ⟨f, hf, rfl⟩ := List.mem_map.mp ha
  rw [List.map_singleton, List.mem_singleton] at hb
  rw [hb]
  simpa using (List.mem_filter.mp hf).2

/-- No two events of a room have one id, as it is first known. -/
theorem Origin.nodup_ids {r : Room} (h : r.Origin) : (r.events.map Event.id).Nodup := by
  cases h with
  | new roomId version => exact List.nodup_nil
  | joined h =>
    obtain ⟨-, -, rfl⟩ := ofRemoteJoin_iff.mp h
    refine nodup_record (r := setState _ _) ?_ _
    rw [events_setState]
    refine foldl_setState_induction (P := fun r => (r.events.map Event.id).Nodup)
      (fun r e h => by rw [events_setState]; exact h) _ ?_
    exact foldl_recordNew_induction (P := fun r => (r.events.map Event.id).Nodup)
      (fun r e h => nodup_record h e) _ List.nodup_nil

/-- Of events with one id the first one is recorded. -/
theorem event?_foldl_recordNew {l : List Event} {r : Room} {id : String} :
    (l.foldl recordNew r).event? id = (r.event? id).or (l.find? fun e => e.id = id) := by
  induction l generalizing r with
  | nil => exact (Option.or_none).symm
  | cons e l ih =>
    rw [List.foldl_cons, ih, recordNew]
    by_cases hid : e.id = id
    · subst hid
      rw [List.find?_cons_of_pos (by simp)]
      split
      · rename_i hc
        obtain ⟨f, hf⟩ := event?_isSome hc
        rw [hf]
        rfl
      · rename_i hc
        rw [contains, Bool.not_eq_true, Option.isSome_eq_false_iff, Option.isNone_iff_eq_none] at hc
        rw [event?_record, if_pos rfl, hc]
        rfl
    · rw [List.find?_cons_of_neg (by simpa using hid)]
      split
      · rfl
      · rw [event?_record, if_neg hid]

theorem event?_seeded (roomId : String) (version : RoomVersion) (state chain : List Event)
    (id : String) : (seeded roomId version state chain).event? id =
      (seeds state chain).find? fun e => e.id = id := by
  refine foldl_setState_induction
    (P := fun r => r.event? id = (seeds state chain).find? fun e => e.id = id)
    (fun r e h => by rw [event?_setState]; exact h) _ ?_
  exact event?_foldl_recordNew

section Joined

variable {version : RoomVersion} {roomId : String} {state chain : List Event} {join : Event}
variable {r s : Room}

/-- A joined room has recorded the join, and under other ids the first event of what was sent. -/
theorem event?_ofRemoteJoin (h : ofRemoteJoin version roomId state chain join = .ok r)
    (id : String) : r.event? id =
      if join.id = id then some join else (seeds state chain).find? fun e => e.id = id := by
  obtain ⟨-, -, rfl⟩ := ofRemoteJoin_iff.mp h
  show (record (setState _ join) join).event? id = _
  rw [event?_record, event?_setState, event?_seeded]

/-- The events of a joined room. -/
theorem mem_ofRemoteJoin (h : ofRemoteJoin version roomId state chain join = .ok r) {e : Event} :
    e ∈ r.events ↔ e = join ∨
      e.id ≠ join.id ∧ (seeds state chain).find? (fun f => f.id = e.id) = some e := by
  have hevent : e ∈ r.events ↔ r.event? e.id = some e := by
    rw [event?_eq_some (Origin.nodup_ids (.joined h))]
    exact (and_iff_left rfl).symm
  rw [hevent, event?_ofRemoteJoin h]
  by_cases hid : join.id = e.id
  · rw [if_pos hid]
    constructor
    · intro hjoin
      exact .inl (Option.some.inj hjoin).symm
    · rintro (rfl | ⟨hne, -⟩)
      · rfl
      · exact absurd hid.symm hne
  · rw [if_neg hid]
    constructor
    · intro he
      exact .inr ⟨Ne.symm hid, he⟩
    · rintro (rfl | ⟨-, he⟩)
      · exact absurd rfl hid
      · exact he

/-! ## Rooms that own their events -/

/-- All recorded events belong to the room. -/
def Owned (r : Room) : Prop := ∀ e ∈ r.events, e.roomId = r.roomId

theorem Appends.owned_iff {e : Event} (he : r.Appends e) : (r.append e).Owned ↔ r.Owned := by
  unfold Owned
  rw [events_append he.new, roomId_append]
  constructor
  · intro h f hf
    exact h f (List.mem_append_left _ hf)
  · intro h f hf
    rcases List.mem_append.mp hf with hf | hf
    · exact h f hf
    · rw [List.mem_singleton.mp hf]
      exact he.room

/-- A room keeps to its own events, or to holding others, as it grows. -/
theorem Grows.owned_iff {l : List Event} (h : r.Grows l s) : s.Owned ↔ r.Owned := by
  induction h with
  | refl => exact Iff.rfl
  | append _ he ih => exact he.owned_iff.trans ih

theorem Origin.owned_afterAll_iff (h : r.Origin) (calls : List Call) :
    (r.afterAll calls).Owned ↔ r.Owned := by
  obtain ⟨l, hl⟩ := grows_afterAll h.anchored calls
  exact hl.owned_iff

/-- A joined room owns its events iff it was given none of another room under an id of its own. -/
theorem owned_ofRemoteJoin_iff (h : ofRemoteJoin version roomId state chain join = .ok r) :
    r.Owned ↔ ∀ e, (seeds state chain).find? (fun f => f.id = e.id) = some e → e.id ≠ join.id →
      e.roomId = roomId := by
  have hroom := roomId_ofRemoteJoin h
  constructor
  · intro hr e he hne
    rw [← hroom]
    exact hr e ((mem_ofRemoteJoin h).mpr (.inr ⟨hne, he⟩))
  · intro hseeds e he
    rw [hroom]
    rcases (mem_ofRemoteJoin h).mp he with rfl | ⟨hne, he⟩
    · exact (ofRemoteJoin_iff.mp h).1
    · exact hseeds e he hne

/-- Where an id tells the room of an event, the first event of each id is of the room iff all are. -/
theorem seeds_owned_iff (hjoin : join.roomId = roomId)
    (hids : ∀ e ∈ state ++ chain ++ [join], ∀ f ∈ state ++ chain ++ [join],
      e.id = f.id → e.roomId = f.roomId) :
    (∀ e, (seeds state chain).find? (fun f => f.id = e.id) = some e → e.id ≠ join.id →
        e.roomId = roomId) ↔ ∀ e ∈ state ++ chain, e.roomId = roomId := by
  constructor
  · intro h e he
    have hgiven : e ∈ state ++ chain ++ [join] := List.mem_append_left _ he
    by_cases hid : e.id = join.id
    · rw [hids e hgiven join (by simp) hid, hjoin]
    · -- the event that is recorded under the id is of the same room
      obtain ⟨f, hfgiven, hfid, hf⟩ := exists_first_seed he
      rw [hids e hgiven f (List.mem_append_left _ hfgiven) hfid.symm]
      exact h f (hfid ▸ hf) (hfid ▸ hid)
  · intro h e he _
    exact h e (mem_of_mem_seeds (List.mem_of_find?_eq_some he))

end Joined

/-- Whose events a room holds, after any run of calls. A room that starts empty holds events of its
own only. A room that was joined through another server does iff no event that came along under an
id other than that of the join is of another room, where the first one by depth counts for each id.
Where an id tells the room of an event, this asks that the whole state and the whole auth chain are
of the room. -/
theorem owned_after_run (version : RoomVersion) (roomId : String) :
    (∀ calls, ((Room.new roomId version).afterAll calls).Owned) ∧
    ∀ state chain join r, ofRemoteJoin version roomId state chain join = .ok r → ∀ calls,
      ((r.afterAll calls).Owned ↔
        ∀ e, (seeds state chain).find? (fun f => f.id = e.id) = some e → e.id ≠ join.id →
          e.roomId = roomId) ∧
      ((∀ e ∈ state ++ chain ++ [join], ∀ f ∈ state ++ chain ++ [join],
          e.id = f.id → e.roomId = f.roomId) →
        ((r.afterAll calls).Owned ↔ ∀ e ∈ state ++ chain, e.roomId = roomId)) := by
  constructor
  · intro calls
    rw [(Origin.new roomId version).owned_afterAll_iff]
    intro e he
    cases he
  · intro state chain join r h calls
    rw [(Origin.joined h).owned_afterAll_iff, owned_ofRemoteJoin_iff h]
    refine ⟨Iff.rfl, fun hids => ?_⟩
    exact seeds_owned_iff (ofRemoteJoin_iff.mp h).1 hids

/-- The room that was joined with its own creation keeps to its events. -/
theorem owned_after_run_of_merge :
    ofRemoteJoin .default "!r:a" [creationSeed] [] earlyJoin = .ok lackingRoom ∧
      (lackingRoom.afterAll [.fork lateParent, .add mergeOfLate]).Owned := by
  refine ⟨ofRemoteJoin_lackingRoom, ?_⟩
  obtain ⟨-, howned⟩ := (owned_after_run .default "!r:a").2 [creationSeed] [] earlyJoin
    lackingRoom ofRemoteJoin_lackingRoom [.fork lateParent, .add mergeOfLate]
  have hids : ∀ e ∈ [creationSeed] ++ [] ++ [earlyJoin], ∀ f ∈ [creationSeed] ++ [] ++ [earlyJoin],
      e.id = f.id → e.roomId = f.roomId := by
    simp [creationSeed, earlyJoin, bare, Event.roomId]
  refine (howned hids).mpr fun e he => ?_
  rw [List.mem_singleton.mp he]
  rfl

/-! ### A creation of another room -/

/-- Any creation is enough to join a room with. -/
theorem ofRemoteJoin_of_creation {c : Event} (hc : c.place? = some .create) (version : RoomVersion)
    (join : Event) : ∃ r, ofRemoteJoin version join.roomId [c] [] join = .ok r := by
  have hstate : Table.find? .create (seeded join.roomId version [c] []).state = some c.id := by
    show Table.find? .create (setState _ c).state = _
    rw [state_setState, hc]
    exact Table.find?_insert_self ..
  have hcreate : (seeded join.roomId version [c] []).stateEvent? .create = some c := by
    unfold stateEvent?
    rw [hstate, Option.bind_some, event?_seeded, seeds_one]
    exact List.find?_cons_of_pos (by simp)
  exact ⟨_, ofRemoteJoin_iff.mpr ⟨rfl, hcreate ▸ rfl, rfl⟩⟩

theorem ofPdu_made {f : EventFields} (hread : EventFields.read (protoOf .default f "a") = .ok f)
    (hstrict : (Json.obj (protoOf .default f "a")).Strict) :
    Event.ofPdu .default (made f).json = .ok (made f) :=
  Event.ofPdu_signEvent (u := ⟨.default, f, protoOf .default f "a"⟩) hread (fun _ => hstrict) maker

def foreign : EventFields := { creating with roomId := "!s:a" }

theorem made_foreign : made foreign = named "$fUtQwaFGstxobtBYnRmN-AES_BDRgDo5CFffi5uRNac" foreign :=
  made_eq "cNNZVS5t5CiURB5eLIb3/S745ZmxkPW8o6B2jlLAgGQ"
    (contentHash_eq _ ▸ by decide +kernel) (eventId_eq _ _ ▸ by decide +kernel)

/-- A room is joined with the creation of another room, which it records as its own. -/
theorem foreign_creation_recorded :
    ∃ r, ofRemoteJoin .default "!r:a" [made foreign] [] (made joining) = .ok r ∧
      Event.ofPdu .default (made foreign).json = .ok (made foreign) ∧
      Event.ofPdu .default (made joining).json = .ok (made joining) ∧
      made foreign ∈ r.events ∧ (made foreign).roomId ≠ r.roomId := by
  obtain ⟨r, hjoined⟩ :=
    ofRemoteJoin_of_creation (c := made foreign) rfl .default (made joining)
  refine ⟨r, hjoined, ofPdu_made rfl rfl, ofPdu_made rfl rfl, ?_, ?_⟩
  · refine (mem_ofRemoteJoin hjoined).mpr (.inr ⟨?_, ?_⟩)
    · rw [made_foreign, made_joining]
      decide
    · rw [seeds_one]
      exact List.find?_cons_of_pos (by simp)
  · rw [roomId_ofRemoteJoin hjoined]
    show "!s:a" ≠ "!r:a"
    decide

end Homeserver.Room
