/-
A join seen from both sides. The room that another server seeds from the current state and from
events that authorise it has the state of the room itself, and both are left with the join as their
only forward extremity.
-/
import Homeserver.Proofs.Room.State
import Homeserver.Room.RemoteJoin

namespace Homeserver.Room

/-! ## When a join goes through -/

/-- The room after a join through another server, which has the join's room and whose state has a
creation. -/
theorem ofRemoteJoin_iff {version : RoomVersion} {roomId : String} {state chain : List Event}
    {join : Event} {r : Room} : ofRemoteJoin version roomId state chain join = .ok r ↔
      join.roomId = roomId ∧ ((seeded roomId version state chain).stateEvent? .create).isSome = true ∧
      r = { ((seeded roomId version state chain).setState join).record join with
        extremities := KeySet.ofList [join.id] } := by
  unfold ofRemoteJoin
  split
  · rename_i hroom
    exact ⟨fun h => (nomatch h), fun h => absurd h.1 hroom⟩
  · rename_i hroom
    simp only
    split
    · rename_i hnone
      refine ⟨fun h => (nomatch h), fun h => ?_⟩
      rw [← Option.not_isSome, h.2.1] at hnone
      cases hnone
    · rename_i hsome
      rw [← Option.not_isSome, Bool.not_eq_true', Bool.not_eq_false] at hsome
      constructor
      · intro h
        exact ⟨Decidable.not_not.mp hroom, hsome, (Except.ok.inj h).symm⟩
      · rintro ⟨-, -, rfl⟩
        rfl

/-! ## Recording seeds -/

theorem contains_record (r : Room) (e : Event) (id : String) :
    (r.record e).contains id = true ↔ e.id = id ∨ r.contains id = true := by
  unfold contains
  rw [event?_record]
  by_cases h : e.id = id <;> simp [h]

theorem contains_foldl_recordNew {l : List Event} {r : Room} {id : String} :
    (l.foldl recordNew r).contains id = true ↔ id ∈ l.map Event.id ∨ r.contains id = true := by
  induction l generalizing r with
  | nil => simp
  | cons e l ih =>
    rw [List.foldl_cons, ih, List.map_cons, List.mem_cons, recordNew]
    -- an event whose id is there already is left out
    split
    · rename_i hc
      constructor
      · rintro (h | h)
        · exact .inl (.inr h)
        · exact .inr h
      · rintro ((rfl | h) | h)
        · exact .inr hc
        · exact .inl h
        · exact .inr h
    · rw [contains_record]
      constructor
      · rintro (h | rfl | h)
        · exact .inl (.inr h)
        · exact .inl (.inl rfl)
        · exact .inr h
      · rintro ((rfl | h) | h)
        · exact .inr (.inl rfl)
        · exact .inl h
        · exact .inr (.inr h)

/-- Recorded seeds give a room no state and make it no deeper than they are. -/
structure Recorded (roomId : String) (depth : Int) (r : Room) : Prop where
  roomId_eq : r.roomId = roomId
  state_nil : r.state = []
  depth_le : r.depth ≤ depth

theorem recorded_foldl_recordNew {roomId : String} {depth : Int} {l : List Event} {r : Room}
    (h : ∀ e ∈ l, e.depth ≤ depth) (hr : Recorded roomId depth r) :
    Recorded roomId depth (l.foldl recordNew r) := by
  induction l generalizing r with
  | nil => exact hr
  | cons e l ih =>
    obtain ⟨he, hl⟩ := List.forall_mem_cons.mp h
    refine ih hl ?_
    unfold recordNew
    split
    · exact hr
    · have := hr.depth_le
      exact ⟨hr.roomId_eq, hr.state_nil, show max r.depth e.depth ≤ depth by omega⟩

theorem mem_seeds {state chain : List Event} {e : Event} :
    e ∈ seeds state chain ↔ (e ∈ chain ∧ e.id ∉ state.map Event.id) ∨ e ∈ state := by
  unfold seeds sortByDepth
  simp [List.mem_mergeSort, List.mem_filter]

theorem mem_of_mem_seeds {state chain : List Event} {e : Event} (h : e ∈ seeds state chain) :
    e ∈ state ++ chain := by
  rcases mem_seeds.mp h with ⟨h, -⟩ | h
  · exact List.mem_append_right _ h
  · exact List.mem_append_left _ h

theorem seeds_one (e : Event) : seeds [e] [] = [e] := List.mergeSort_singleton _

/-- Each id that was sent along is that of a seed. -/
theorem mem_ids_seeds {state chain : List Event} {id : String} :
    id ∈ (seeds state chain).map Event.id ↔ id ∈ (state ++ chain).map Event.id := by
  simp only [List.mem_map, mem_seeds, List.mem_append]
  constructor
  · rintro ⟨e, ⟨he, -⟩ | he, rfl⟩
    · exact ⟨e, .inr he, rfl⟩
    · exact ⟨e, .inl he, rfl⟩
  · rintro ⟨e, he | he, rfl⟩
    · exact ⟨e, .inr he, rfl⟩
    · -- of two events with one id the one from the state counts
      by_cases hstate : ∃ f ∈ state, f.id = e.id
      · obtain ⟨f, hf, hid⟩ := hstate
        exact ⟨f, .inr hf, hid⟩
      · exact ⟨e, .inl ⟨he, hstate⟩, rfl⟩

/-- An id that was sent along has a first seed, which was sent along as well. -/
theorem exists_first_seed {state chain : List Event} {e : Event} (h : e ∈ state ++ chain) :
    ∃ f ∈ state ++ chain, f.id = e.id ∧ (seeds state chain).find? (fun g => g.id = e.id) = some f := by
  obtain ⟨g, hg, hid⟩ := List.mem_map.mp (mem_ids_seeds.mpr (List.mem_map_of_mem h))
  obtain ⟨f, hf⟩ := Option.isSome_iff_exists.mp
    (List.find?_isSome (p := fun f : Event => f.id = e.id).mpr ⟨g, hg, by simpa using hid⟩)
  exact ⟨f, mem_of_mem_seeds (List.mem_of_find?_eq_some hf), by simpa using List.find?_some hf, hf⟩

/-! ## Seeded rooms -/

/-- A room seeded from the current state of another one and from events of it has its state. -/
theorem Settled.seeded_spec {r : Room} (hr : r.Settled) {chain : List Event}
    (hchain : ∀ e ∈ chain, e ∈ r.events) :
    let s := seeded r.roomId r.version r.currentState chain
    s.roomId = r.roomId ∧ s.state = r.state ∧ s.depth ≤ r.depth ∧
      ∀ e ∈ r.currentState, s.contains e.id = true := by
  intro s
  have hdepth : ∀ e ∈ seeds r.currentState chain, e.depth ≤ r.depth := by
    intro e he
    rcases mem_seeds.mp he with ⟨he, -⟩ | he
    · exact hr.depth_le e (hchain e he)
    · exact hr.depth_le e (mem_currentState he)
  have hrec := recorded_foldl_recordNew hdepth
    (r := Room.new r.roomId r.version) ⟨rfl, rfl, hr.depth_nonneg⟩
  refine ⟨?_, hr.state_of_currentState hrec.state_nil, ?_, fun e he => ?_⟩
  · exact foldl_setState_induction (P := fun t => t.roomId = r.roomId)
      (fun t e h => by rw [roomId_setState, h]) _ hrec.roomId_eq
  · exact foldl_setState_induction (P := fun t => t.depth ≤ r.depth)
      (fun t e h => by rw [depth_setState]; exact h) _ hrec.depth_le
  · refine foldl_setState_induction (P := fun t => t.contains e.id = true)
      (fun t f h => by rw [contains, event?_setState]; exact h) _ ?_
    exact contains_foldl_recordNew.mpr (.inl (List.mem_map_of_mem (mem_seeds.mpr (.inr he))))

/-- The room after a join holds the join as its only extremity and its last event. -/
theorem ofRemoteJoin_ok {version : RoomVersion} {roomId : String} {state chain : List Event}
    {join : Event} {r : Room} (h : ofRemoteJoin version roomId state chain join = .ok r) :
    r.forwardExtremities = [join.id] ∧ r.event? join.id = some join := by
  obtain ⟨-, -, rfl⟩ := ofRemoteJoin_iff.mp h
  refine ⟨rfl, ?_⟩
  show (record _ join).event? join.id = _
  rw [event?_record, if_pos rfl]

theorem contains_join {version : RoomVersion} {roomId : String} {state chain : List Event}
    {join : Event} {r : Room} (h : ofRemoteJoin version roomId state chain join = .ok r) :
    r.contains join.id = true := by
  rw [contains, (ofRemoteJoin_ok h).2]
  rfl

theorem foldl_recordNew_induction {P : Room → Prop} (step : ∀ r e, P r → P (r.record e))
    (l : List Event) {r : Room} (h : P r) : P (l.foldl recordNew r) := by
  induction l generalizing r with
  | nil => exact h
  | cons e l ih =>
    refine ih ?_
    unfold recordNew
    split
    · exact h
    · exact step r e h

theorem seeded_identity (roomId : String) (version : RoomVersion) (state chain : List Event) :
    (seeded roomId version state chain).roomId = roomId ∧
      (seeded roomId version state chain).version = version := by
  refine foldl_setState_induction (P := fun r => r.roomId = roomId ∧ r.version = version)
    (fun r e h => by rw [roomId_setState, version_setState]; exact h) _ ?_
  exact foldl_recordNew_induction (P := fun r => r.roomId = roomId ∧ r.version = version)
    (fun r e h => h) _ ⟨rfl, rfl⟩

theorem roomId_ofRemoteJoin {version : RoomVersion} {roomId : String} {state chain : List Event}
    {join : Event} {r : Room} (h : ofRemoteJoin version roomId state chain join = .ok r) :
    r.roomId = roomId := by
  obtain ⟨-, -, rfl⟩ := ofRemoteJoin_iff.mp h
  show (setState _ join).roomId = _
  rw [roomId_setState, (seeded_identity ..).1]

theorem version_ofRemoteJoin {version : RoomVersion} {roomId : String} {state chain : List Event}
    {join : Event} {r : Room} (h : ofRemoteJoin version roomId state chain join = .ok r) :
    r.version = version := by
  obtain ⟨-, -, rfl⟩ := ofRemoteJoin_iff.mp h
  show (setState _ join).version = _
  rw [version_setState, (seeded_identity ..).2]

/-- A joined room has recorded what the answer brought along, and nothing else. -/
theorem contains_ofRemoteJoin {version : RoomVersion} {roomId : String} {state chain : List Event}
    {join : Event} {r : Room} (h : ofRemoteJoin version roomId state chain join = .ok r)
    {id : String} :
    r.contains id = true ↔ id ∈ (state ++ chain ++ [join]).map Event.id := by
  obtain ⟨-, -, rfl⟩ := ofRemoteJoin_iff.mp h
  have hseeded : (seeded roomId version state chain).contains id = true ↔
      id ∈ (seeds state chain).map Event.id := by
    refine foldl_setState_induction
      (P := fun r => r.contains id = true ↔ id ∈ (seeds state chain).map Event.id)
      (fun r e h => by rw [contains, event?_setState]; exact h) _ ?_
    rw [contains_foldl_recordNew]
    exact or_iff_left nofun
  have hconcat : id ∈ (state ++ chain ++ [join]).map Event.id ↔
      id ∈ (state ++ chain).map Event.id ∨ join.id = id := by
    rw [List.map_append, List.mem_append, List.map_singleton, List.mem_singleton, eq_comm]
  show (record _ join).contains id = true ↔ _
  rw [contains_record, contains, event?_setState, ← contains, hseeded, mem_ids_seeds, hconcat, or_comm]

/-- The state of the room after a join: the join in its place, and elsewhere what was sent along,
with the join in place of an event that has its id. -/
theorem stateEvent?_ofRemoteJoin {version : RoomVersion} {roomId : String}
    {state chain : List Event} {join : Event} {r : Room}
    (h : ofRemoteJoin version roomId state chain join = .ok r) (place : StateKey) :
    r.stateEvent? place = if join.place? = some place then some join
      else ((seeded roomId version state chain).record join).stateEvent? place := by
  obtain ⟨-, -, rfl⟩ := ofRemoteJoin_iff.mp h
  have hevent : ∀ id, (((seeded roomId version state chain).setState join).record join).event? id =
      ((seeded roomId version state chain).record join).event? id := by
    intro id
    rw [event?_record, event?_record, event?_setState]
  show (Table.find? place (setState _ join).state).bind (record _ join).event? = _
  rw [find?_state_setState]
  split
  · rw [Option.bind_some, hevent, event?_record, if_pos rfl]
  · exact congrArg _ (funext hevent)

/-- A room that was joined through another server was created. -/
theorem isSome_create_ofRemoteJoin {version : RoomVersion} {roomId : String}
    {state chain : List Event} {join : Event} {r : Room}
    (h : ofRemoteJoin version roomId state chain join = .ok r) :
    (r.stateEvent? .create).isSome = true := by
  obtain ⟨-, hcreate, -⟩ := ofRemoteJoin_iff.mp h
  rw [stateEvent?_ofRemoteJoin h]
  split
  · rfl
  · -- recording the join takes nothing away
    obtain ⟨e, he⟩ := Option.isSome_iff_exists.mp hcreate
    obtain ⟨id, hid, he⟩ := Option.bind_eq_some_iff.mp he
    show ((Table.find? .create (seeded roomId version state chain).state).bind
      ((seeded roomId version state chain).record join).event?).isSome = true
    rw [hid, Option.bind_some, event?_record]
    split
    · rfl
    · rw [he]
      rfl

/-- The room after a join as the joining server has it: the join set its place in the state of the
room, and it is the only forward extremity and the deepest event. -/
theorem Settled.ofRemoteJoin_spec {r : Room} (hr : r.Settled)
    (hcreate : (r.stateEvent? .create).isSome = true) {chain : List Event}
    (hchain : ∀ e ∈ chain, e ∈ r.events) {join : Event} (hroom : join.roomId = r.roomId)
    (hdepth : r.depth ≤ join.depth) :
    ∃ joined, ofRemoteJoin r.version r.roomId r.currentState chain join = .ok joined ∧
      joined.roomId = r.roomId ∧ joined.state = (r.setState join).state ∧
      joined.forwardExtremities = [join.id] ∧ joined.depth = join.depth ∧
      joined.event? join.id = some join := by
  obtain ⟨hid, hstate, hle, hheld⟩ := hr.seeded_spec hchain
  -- the creation is part of the current state, so it is among the seeds
  have hstart : ((seeded r.roomId r.version r.currentState chain).stateEvent? .create).isSome := by
    obtain ⟨e, he⟩ := Option.isSome_iff_exists.mp hcreate
    obtain ⟨id, hfind, hev⟩ := Option.bind_eq_some_iff.mp he
    have := hheld e (mem_currentState_of_stateEvent? he)
    rw [(mem_of_event? hev).2] at this
    unfold stateEvent?
    rw [hstate, hfind]
    exact this
  refine ⟨_, ofRemoteJoin_iff.mpr ⟨hroom, hstart, rfl⟩, ?_, ?_, rfl, ?_, ?_⟩
  · show (setState _ join).roomId = _
    rw [roomId_setState, hid]
  · show (setState _ join).state = _
    rw [state_setState, state_setState, hstate]
  · show max (setState _ join).depth join.depth = _
    rw [depth_setState]
    omega
  · show (record _ join).event? join.id = _
    rw [event?_record, if_pos rfl]

end Homeserver.Room
