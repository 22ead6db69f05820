/-
The state and the depth of a room that grew from an empty one: each place of the state holds the id
of a recorded event that sets the place, and the depth is that of a forward extremity. So letting
the events of the current state set their places one after the other gives the state again, and an
event built on the forward extremities is one deeper than the room.
-/
import Homeserver.Proofs.Room.Graph

namespace Homeserver

/-- The place in the state that an event sets. -/
def Event.place? (e : Event) : Option StateKey := e.stateKey.map fun key => ⟨e.type, key⟩

theorem Event.type_of_place? {e : Event} {place : StateKey} (h : e.place? = some place) :
    e.type = place.type := by
  obtain ⟨key, -, rfl⟩ := Option.map_eq_some_iff.mp h
  rfl

namespace Room

/-! ## Setting the state -/

theorem state_setState (r : Room) (e : Event) : (r.setState e).state =
    match e.place? with
    | some place => Table.insert place e.id r.state
    | none => r.state := by
  unfold setState Event.place?
  cases e.stateKey <;> rfl

theorem find?_state_setState (r : Room) (e : Event) (place : StateKey) :
    Table.find? place (r.setState e).state =
      if e.place? = some place then some e.id else Table.find? place r.state := by
  rw [state_setState]
  cases hp : e.place? with
  | none => rw [if_neg (by simp)]
  | some place' =>
    simp only [Table.find?_insert, Option.some.injEq]

theorem find?_state_append (r : Room) (e : Event) (place : StateKey) :
    Table.find? place (r.append e).state =
      if e.place? = some place then some e.id else Table.find? place r.state := by
  rw [state_append, find?_state_setState]

/-- The row of the state that an event makes. -/
def rowOf (e : Event) : Option (StateKey × String) := e.place?.map fun place => (place, e.id)

theorem state_foldl_setState (l : List Event) (r : Room) : (l.foldl setState r).state =
    (l.filterMap rowOf).foldl (fun t row => Table.insert row.1 row.2 t) r.state := by
  induction l generalizing r with
  | nil => rfl
  | cons e l ih =>
    rw [List.foldl_cons, ih, state_setState]
    unfold rowOf
    cases h : e.place? with
    | none => rw [List.filterMap_cons_none (by rw [h]; rfl)]
    | some place => rw [List.filterMap_cons_some (b := (place, e.id)) (by rw [h]; rfl)]; rfl

theorem foldl_setState_induction {P : Room → Prop} (step : ∀ r e, P r → P (r.setState e))
    (l : List Event) {r : Room} (h : P r) : P (l.foldl setState r) := by
  induction l generalizing r with
  | nil => exact h
  | cons e l ih => exact ih (step r e h)

/-! ## The invariant -/

/-- The state and the depth of a room that knows all ancestors of its events. -/
structure Settled (r : Room) : Prop extends r.WellFormed where
  sorted : Table.Sorted r.state
  /-- Each place of the state holds a recorded event that sets it. -/
  placed : ∀ place id, Table.find? place r.state = some id →
    ∃ e, r.event? id = some e ∧ e.place? = some place
  depth_nil : r.events = [] → r.depth = 0
  depth_nonneg : 0 ≤ r.depth
  depth_le : ∀ e ∈ r.events, e.depth ≤ r.depth
  depth_mem : r.events ≠ [] → ∃ e ∈ r.events, e.depth = r.depth

theorem settled_new (roomId : String) (version : RoomVersion) :
    (Room.new roomId version).Settled where
  toWellFormed := wellFormed_new roomId version
  sorted := Table.sorted_nil
  placed := fun _ _ h => nomatch h
  depth_nil := fun _ => rfl
  depth_nonneg := Int.le_refl 0
  depth_le := fun _ h => nomatch h
  depth_mem := fun h => absurd rfl h

/-- The new event sets its own place, and the other places hold what they held. -/
theorem Settled.placed_append {r : Room} (hr : r.Settled) {e : Event} (he : r.Appends e)
    {place : StateKey} {id : String} (h : Table.find? place (r.append e).state = some id) :
    ∃ f, (r.append e).event? id = some f ∧ f.place? = some place := by
  have hold : Table.find? place r.state = some id →
      ∃ f, (r.append e).event? id = some f ∧ f.place? = some place := by
    intro h
    obtain ⟨f, hf, hp⟩ := hr.placed place id h
    exact ⟨f, he.event?_append hf, hp⟩
  rw [find?_state_append] at h
  split at h
  · rename_i hp
    cases h
    exact ⟨e, by rw [event?_append, if_pos rfl], hp⟩
  · exact hold h

/-- The deepest event of a room is the new one or the one that was. -/
theorem Settled.depth_mem_append {r : Room} (hr : r.Settled) {e : Event} (he : r.Appends e) :
    ∃ f ∈ (r.append e).events, f.depth = (r.append e).depth := by
  rw [events_append he.new, depth_append]
  by_cases hle : r.depth ≤ e.depth
  · exact ⟨e, by simp, by omega⟩
  · -- the room is deeper than its new event, so it had events before
    have hne : r.events ≠ [] := by
      intro hnil
      have h₁ := he.depth
      have h₂ := hr.depth_nil hnil
      rw [deepestParent_root (he.prevEvents_nil hnil)] at h₁
      omega
    obtain ⟨f, hf, hd⟩ := hr.depth_mem hne
    exact ⟨f, List.mem_append_left _ hf, by omega⟩

theorem Settled.deepestParent_le {r : Room} (hr : r.Settled) {e : Event} (he : r.Appends e) :
    r.deepestParent e ≤ r.depth := by
  by_cases hroot : e.prevEvents = []
  · rw [deepestParent_root hroot]
    exact hr.depth_nonneg
  · obtain ⟨⟨p, -, f, hf, hdepth⟩, -⟩ := deepestParent_spec hroot he.parents
    have hle := hr.depth_le f (mem_of_event? hf).1
    omega

theorem Settled.append {r : Room} (hr : r.Settled) {e : Event} (he : r.Appends e) :
    (r.append e).Settled := by
  constructor
  case toWellFormed => exact hr.toWellFormed.append he
  case sorted =>
    rw [state_append, state_setState]
    split
    · exact hr.sorted.insert _ _
    · exact hr.sorted
  case placed => exact fun _ _ h => hr.placed_append he h
  case depth_nil =>
    intro h
    rw [events_append he.new] at h
    exact absurd h (by simp)
  case depth_nonneg =>
    have := hr.depth_nonneg
    rw [depth_append]
    omega
  case depth_le =>
    intro f hf
    rw [events_append he.new] at hf
    rw [depth_append]
    rcases List.mem_append.mp hf with hf | hf
    · have := hr.depth_le f hf
      omega
    · rw [List.mem_singleton.mp hf]
      omega
  case depth_mem => exact fun _ => hr.depth_mem_append he

theorem Grows.settled {r s : Room} {l : List Event} (h : r.Grows l s) (hr : r.Settled) : s.Settled :=
  (h.induction (P := Settled) (fun _ _ _ hr he => hr.append he) hr.toConsistent hr).2

/-- Every room that grew from an empty one is settled. -/
theorem settled_afterAll (roomId : String) (version : RoomVersion) (calls : List Call) :
    ((Room.new roomId version).afterAll calls).Settled := by
  obtain ⟨l, h⟩ := grows_afterAll (consistent_new roomId version).tips calls
  exact h.settled (settled_new roomId version)

/-! ## The current state -/

theorem mem_currentState {r : Room} {e : Event} (h : e ∈ r.currentState) : e ∈ r.events := by
  obtain ⟨id, -, hid⟩ := List.mem_filterMap.mp h
  exact (mem_of_event? hid).1

theorem mem_currentState_of_stateEvent? {r : Room} {place : StateKey} {e : Event}
    (h : r.stateEvent? place = some e) : e ∈ r.currentState := by
  obtain ⟨id, hid, he⟩ := Option.bind_eq_some_iff.mp h
  exact List.mem_filterMap.mpr ⟨id, List.mem_map_of_mem (Table.mem_of_find? hid), he⟩

theorem events_ne_nil_of_stateEvent? {r : Room} {place : StateKey}
    (h : (r.stateEvent? place).isSome = true) : r.events ≠ [] := by
  obtain ⟨e, he⟩ := Option.isSome_iff_exists.mp h
  exact List.ne_nil_of_mem (mem_currentState (mem_currentState_of_stateEvent? he))

/-- A place of the state is set iff it holds a recorded event. -/
theorem Settled.stateEvent?_isSome {r : Room} (hr : r.Settled) {place : StateKey} :
    (r.stateEvent? place).isSome = true ↔ (Table.find? place r.state).isSome = true := by
  unfold stateEvent?
  cases hid : Table.find? place r.state with
  | none => exact Iff.rfl
  | some id =>
    obtain ⟨e, he, -⟩ := hr.placed place id hid
    rw [Option.bind_some, he]
    exact Iff.rfl

theorem Settled.rows_currentState {r : Room} (hr : r.Settled) :
    r.currentState.filterMap rowOf = r.state := by
  unfold currentState Table.values
  rw [List.filterMap_filterMap, List.filterMap_map]
  have hrow : ∀ row ∈ r.state, ((fun id => (r.event? id).bind rowOf) ∘ Prod.snd) row = some row := by
    rintro ⟨place, id⟩ hm
    obtain ⟨e, he, hp⟩ := hr.placed place id (hr.sorted.find?_of_mem hm)
    simp [rowOf, he, hp, (mem_of_event? he).2]
  rw [List.filterMap_congr hrow]
  exact List.filterMap_some

/-- The events of the current state, each setting its place, make the state. -/
theorem Settled.state_of_currentState {r s : Room} (hr : r.Settled) (hs : s.state = []) :
    (r.currentState.foldl setState s).state = r.state := by
  rw [state_foldl_setState, hr.rows_currentState, hs]
  exact Table.ofList_of_sorted hr.sorted

/-! ## Building on the forward extremities -/

theorem foldl_max_le {l : List Int} {a b : Int} :
    l.foldl max a ≤ b ↔ a ≤ b ∧ ∀ x ∈ l, x ≤ b := by
  induction l generalizing a with
  | nil => simp
  | cons x l ih =>
    rw [List.foldl_cons, ih, List.forall_mem_cons]
    constructor
    · rintro ⟨h, hl⟩
      exact ⟨by omega, by omega, hl⟩
    · rintro ⟨ha, hx, hl⟩
      exact ⟨by omega, hl⟩

/-- A deepest event of a room is one of its forward extremities. -/
theorem Settled.deepest_tip {r : Room} (hr : r.Settled) (hne : r.events ≠ []) :
    ∃ e, e ∈ r.events ∧ e.id ∈ r.forwardExtremities ∧ e.depth = r.depth := by
  obtain ⟨e, he, hd⟩ := hr.depth_mem hne
  refine ⟨e, he, (hr.childless e.id).mpr ⟨contains_iff.mpr (List.mem_map_of_mem he), ?_⟩, hd⟩
  intro f hf hp
  -- a child would be deeper than the room
  have h₁ := (hr.depth f hf).above e he hp
  have h₂ := hr.depth_le f hf
  omega

theorem Settled.deepestParent_tips {r : Room} (hr : r.Settled) {e : Event}
    (he : e.prevEvents = r.forwardExtremities) : r.deepestParent e = r.depth := by
  by_cases hne : r.events = []
  · have hroot : e.prevEvents = [] := by rw [he, hr.extremities_nil hne]
    rw [deepestParent_root hroot, hr.depth_nil hne]
  · obtain ⟨f, hf, hft, hfd⟩ := hr.deepest_tip hne
    obtain ⟨⟨p, hp, g, hg, hgd⟩, hle⟩ := deepestParent_spec (e := e)
      (List.ne_nil_of_mem (he ▸ hft)) (fun p hp => hr.tips p (he ▸ hp))
    have h₁ := hle f.id (he ▸ hft) f (hr.event?_of_mem hf)
    have h₂ := hr.depth_le g (mem_of_event? hg).1
    omega

theorem Settled.nextDepth_tips {r : Room} (hr : r.Settled) :
    r.nextDepth r.forwardExtremities = deeper r.depth := by
  rw [nextDepth_of_recorded hr.tips]
  congr 1
  -- no extremity is deeper than the room, and one is as deep
  refine Int.le_antisymm (foldl_max_le.mpr ⟨hr.depth_nonneg, ?_⟩) ?_
  · rw [List.forall_mem_map]
    intro e he
    obtain ⟨id, -, hid⟩ := List.mem_filterMap.mp he
    exact hr.depth_le e (mem_of_event? hid).1
  · obtain ⟨hzero, hmax⟩ := foldl_max_le.mp (Int.le_refl
      (((r.forwardExtremities.filterMap r.event?).map Event.depth).foldl max 0))
    by_cases hne : r.events = []
    · exact hr.depth_nil hne ▸ hzero
    · obtain ⟨e, he, hid, hd⟩ := hr.deepest_tip hne
      exact hd ▸ hmax _ (List.mem_map_of_mem
        (List.mem_filterMap.mpr ⟨e.id, hid, hr.event?_of_mem he⟩))

/-- A settled room builds the event of a template one deeper than itself, iff the template passes the
checks and there is such a depth. -/
theorem Settled.build_iff {r : Room} (hr : r.Settled) {origin : String} {now : Int}
    {t : EventTemplate} {u : UnsignedEvent} : r.build origin now t = .ok u ↔
      t.check r.version = .ok () ∧ r.checkStart t = .ok () ∧ r.depth < maxDepth ∧
        u = r.built origin now t (r.depth + 1) := by
  rw [build_ok, hr.nextDepth_tips]
  refine and_congr_right fun _ => and_congr_right fun _ => ?_
  constructor
  · rintro ⟨depth, hdepth, rfl⟩
    obtain ⟨rfl, hle⟩ := deeper_ok.mp hdepth
    exact ⟨hle, rfl⟩
  · rintro ⟨hlt, rfl⟩
    exact ⟨r.depth + 1, deeper_ok.mpr ⟨rfl, hlt⟩, rfl⟩

theorem Settled.exists_build_iff {r : Room} (hr : r.Settled) {origin : String} {now : Int}
    {t : EventTemplate} : (∃ u, r.build origin now t = .ok u) ↔
      t.check r.version = .ok () ∧ r.checkStart t = .ok () ∧ r.depth < maxDepth := by
  simp only [hr.build_iff, exists_and_left, exists_eq, and_true]

end Room

end Homeserver
