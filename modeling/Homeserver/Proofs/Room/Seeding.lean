/-
The order in which a join's state and auth chain are sent. What came along is sorted by depth and id
before it is recorded, and of the events with one id the first one is recorded. So where an id tells
the event, only the set of events counts for what is recorded and in which order. The state of the
room is made of the state list alone, of which the last event at each place counts.
-/
import Homeserver.Proofs.Room.Order
import Homeserver.Proofs.Room.Replay
import Homeserver.Proofs.Room.Seeds

namespace Homeserver.Room

/-! ## What is recorded of a list -/

/-- The room that has recorded these events, one after the other, and nothing else. -/
def holding (roomId : String) (version : RoomVersion) (l : List Event) : Room where
  roomId
  version
  events := l
  timeline := l.map Event.id
  extremities := []
  state := []
  depth := (l.map Event.depth).foldl max 0

theorem record_holding {roomId : String} {version : RoomVersion} {l : List Event} {e : Event}
    (h : e.id ∉ l.map Event.id) :
    (holding roomId version l).record e = holding roomId version (l ++ [e]) := by
  have hfilter : l.filter (fun f => f.id ≠ e.id) = l := by
    refine List.filter_eq_self.mpr fun f hf => ?_
    rw [decide_eq_true_eq]
    exact fun hid => h (hid ▸ List.mem_map_of_mem hf)
  unfold holding record
  rw [hfilter, List.map_append, List.map_append, List.foldl_append]
  rfl

/-- What is kept of a list of events: some of them in their order, one for each id. -/
structure KeptOf (l kept : List Event) : Prop where
  sublist : kept.Sublist l
  nodup : (kept.map Event.id).Nodup
  ids : ∀ id, id ∈ kept.map Event.id ↔ id ∈ l.map Event.id

theorem KeptOf.concat_known {l kept : List Event} (h : KeptOf l kept) {e : Event}
    (he : e.id ∈ kept.map Event.id) : KeptOf (l ++ [e]) kept where
  sublist := h.sublist.trans (List.sublist_append_left l [e])
  nodup := h.nodup
  ids := fun id => by
    rw [List.map_append, List.mem_append, ← h.ids, List.map_singleton, List.mem_singleton]
    exact ⟨.inl, fun hid => hid.elim (fun hid => hid) fun hid => hid ▸ he⟩

theorem KeptOf.concat_new {l kept : List Event} (h : KeptOf l kept) {e : Event}
    (he : e.id ∉ kept.map Event.id) : KeptOf (l ++ [e]) (kept ++ [e]) where
  sublist := h.sublist.append (List.Sublist.refl [e])
  nodup := by
    rw [List.map_append, List.nodup_append]
    refine ⟨h.nodup, List.nodup_singleton _, fun a ha b hb hab => ?_⟩
    rw [List.map_singleton, List.mem_singleton] at hb
    exact he (hb ▸ hab ▸ ha)
  ids := fun id => by
    rw [List.map_append, List.map_append, List.mem_append, List.mem_append, h.ids]

/-- An empty room to which events are given records those that are kept of them. -/
theorem foldl_recordNew_new (roomId : String) (version : RoomVersion) (l : List Event) :
    ∃ kept, KeptOf l kept ∧
      l.foldl recordNew (Room.new roomId version) = holding roomId version kept := by
  induction l using List.reverseRecOn with
  | nil => exact ⟨[], ⟨List.Sublist.refl [], List.nodup_nil, fun _ => Iff.rfl⟩, rfl⟩
  | append_singleton l e ih =>
    obtain ⟨kept, hkept, heq⟩ := ih
    rw [List.foldl_append, heq]
    show ∃ kept', _ ∧ (holding roomId version kept).recordNew e = _
    unfold recordNew
    by_cases he : e.id ∈ kept.map Event.id
    · rw [if_pos (contains_iff.mpr he)]
      exact ⟨kept, hkept.concat_known he, rfl⟩
    · rw [if_neg (mt contains_iff.mp he)]
      exact ⟨kept ++ [e], hkept.concat_new he, record_holding he⟩

/-! ## Seeds -/

section Seeds

variable {state state' chain chain' kept kept' : List Event} {e : Event}

/-- Where an id tells the event, all that came along is kept. -/
theorem KeptOf.mem_seeds_iff (h : KeptOf (seeds state chain) kept)
    (hids : ∀ e ∈ state ++ chain, ∀ f ∈ state ++ chain, e.id = f.id → e = f) :
    e ∈ kept ↔ e ∈ state ++ chain := by
  constructor
  · intro he
    exact mem_of_mem_seeds (h.sublist.subset he)
  · intro he
    obtain ⟨f, hf, hid⟩ := List.mem_map.mp
      ((h.ids e.id).mpr (mem_ids_seeds.mpr (List.mem_map_of_mem he)))
    rwa [← hids f (mem_of_mem_seeds (h.sublist.subset hf)) e he hid]

/-- What is kept of seeds stands in the order of depth and id. -/
theorem KeptOf.precedes (h : KeptOf (seeds state chain) kept) : kept.Pairwise Precedes :=
  pairwise_precedes ((pairwise_sortByDepth _).sublist h.sublist) h.nodup

/-- Where an id tells the event, what is kept of seeds depends on the set of events only. -/
theorem KeptOf.eq_of_same (h : KeptOf (seeds state chain) kept)
    (h' : KeptOf (seeds state' chain') kept')
    (hids : ∀ e ∈ state ++ chain, ∀ f ∈ state ++ chain, e.id = f.id → e = f)
    (hsame : ∀ e, e ∈ state' ++ chain' ↔ e ∈ state ++ chain) : kept' = kept := by
  have hids' : ∀ e ∈ state' ++ chain', ∀ f ∈ state' ++ chain', e.id = f.id → e = f :=
    fun e he f hf => hids e ((hsame e).mp he) f ((hsame f).mp hf)
  refine h'.precedes.eq_of_mem_iff h.precedes fun e => ?_
  rw [h'.mem_seeds_iff hids', h.mem_seeds_iff hids, hsame]

end Seeds

/-! ## The state that events make -/

/-- The state that events make which set their places one after the other. -/
def stateOf (l : List Event) : Table StateKey String := Table.ofList (l.filterMap rowOf)

theorem stateOf_concat (l : List Event) (e : Event) : stateOf (l ++ [e]) =
    match e.place? with
    | some place => Table.insert place e.id (stateOf l)
    | none => stateOf l := by
  unfold stateOf
  rw [List.filterMap_append]
  cases h : e.place? with
  | none =>
    have hrow : rowOf e = none := by rw [rowOf, h]; rfl
    rw [List.filterMap_cons_none hrow, List.filterMap_nil, List.append_nil]
  | some place =>
    have hrow : rowOf e = some (place, e.id) := by rw [rowOf, h]; rfl
    rw [List.filterMap_cons_some hrow, List.filterMap_nil]
    exact List.foldl_append

/-- Each place of it names the last of the events that sets the place. -/
theorem find?_stateOf (place : StateKey) (l : List Event) :
    Table.find? place (stateOf l) = (lastAt place l).map Event.id := by
  induction l using List.reverseRecOn with
  | nil => rfl
  | append_singleton l e ih =>
    rw [stateOf_concat, lastAt_concat]
    cases e.place? with
    | none => rw [if_neg (by simp), ih]
    | some other =>
      simp only [Table.find?_insert, Option.some.injEq, ih]
      split <;> rfl

/-- Where no place is set twice, the order of the events does not count. -/
theorem stateOf_perm {l l' : List Event} (h : l'.Perm l) (hn : (l.filterMap Event.place?).Nodup) :
    stateOf l' = stateOf l := by
  have hkeys : Table.keys (l.filterMap rowOf).reverse = (l.filterMap Event.place?).reverse := by
    have hplace : ∀ e : Event, (rowOf e).map Prod.fst = e.place? := by
      intro e
      unfold rowOf
      cases e.place? <;> rfl
    unfold Table.keys
    rw [List.map_reverse, List.map_filterMap]
    simp only [hplace]
  have hrows : (l.filterMap rowOf).reverse.Perm (l'.filterMap rowOf).reverse :=
    (List.reverse_perm _).trans ((h.symm.filterMap rowOf).trans (List.reverse_perm _).symm)
  unfold stateOf
  refine (Table.sorted_ofList _).ext (Table.sorted_ofList _) fun place => ?_
  rw [Table.find?_ofList, Table.find?_ofList]
  exact (Table.find?_perm hrows (hkeys ▸ List.nodup_reverse.mpr hn)).symm

/-- Setting the state changes nothing else of a room. -/
theorem foldl_setState_eq (l : List Event) (r : Room) :
    l.foldl setState r = { r with state := (l.foldl setState r).state } := by
  obtain ⟨t, ht⟩ : ∃ t, l.foldl setState r = { r with state := t } := by
    refine foldl_setState_induction (P := fun s => ∃ t, s = { r with state := t }) ?_ l ⟨_, rfl⟩
    rintro s e ⟨t, rfl⟩
    unfold setState
    cases e.stateKey with
    | none => exact ⟨t, rfl⟩
    | some key => exact ⟨_, rfl⟩
  rw [ht]

/-! ## Joined rooms -/

section Joined

variable {version : RoomVersion} {roomId : String} {state state' chain chain' : List Event}
  {join : Event} {r : Room}

/-- A seeded room: the events that are kept of the seeds, and the state that the state list makes. -/
theorem seeded_eq (roomId : String) (version : RoomVersion) (state chain : List Event) :
    ∃ kept, KeptOf (seeds state chain) kept ∧ seeded roomId version state chain =
      { holding roomId version kept with state := stateOf state } := by
  obtain ⟨kept, hkept, heq⟩ := foldl_recordNew_new roomId version (seeds state chain)
  refine ⟨kept, hkept, ?_⟩
  unfold seeded
  simp only [heq]
  rw [foldl_setState_eq, state_foldl_setState]
  rfl

/-- What was sent along counts only as a set of events, where an id tells the event, and as the
state that its state list makes. -/
theorem ofRemoteJoin_congr
    (hids : ∀ e ∈ state ++ chain, ∀ f ∈ state ++ chain, e.id = f.id → e = f)
    (hsame : ∀ e, e ∈ state' ++ chain' ↔ e ∈ state ++ chain)
    (hstate : stateOf state' = stateOf state) :
    ofRemoteJoin version roomId state' chain' join =
      ofRemoteJoin version roomId state chain join := by
  have hseeded : seeded roomId version state' chain' = seeded roomId version state chain := by
    obtain ⟨kept, hkept, heq⟩ := seeded_eq roomId version state chain
    obtain ⟨kept', hkept', heq'⟩ := seeded_eq roomId version state' chain'
    rw [heq, heq', hkept.eq_of_same hkept' hids hsame, hstate]
  unfold ofRemoteJoin
  rw [hseeded]

/-- A place of the state is set in a seeded room iff an event of the state list sets it. -/
theorem stateEvent?_seeded_isSome (roomId : String) (version : RoomVersion)
    (state chain : List Event) (place : StateKey) :
    ((seeded roomId version state chain).stateEvent? place).isSome = true ↔
      ∃ e ∈ state, e.type = place.type ∧ e.stateKey = some place.key := by
  obtain ⟨kept, hkept, heq⟩ := seeded_eq roomId version state chain
  have hfind : ((lastAt place state).isSome = true) ↔
      ∃ e ∈ state, e.type = place.type ∧ e.stateKey = some place.key := by
    unfold lastAt
    simp only [List.find?_isSome, List.mem_reverse, decide_eq_true_eq]
  rw [← hfind]
  unfold stateEvent?
  have hstate : Table.find? place (seeded roomId version state chain).state =
      (lastAt place state).map Event.id := by
    rw [heq]
    exact find?_stateOf place state
  rw [hstate]
  cases hlast : lastAt place state with
  | none => exact Iff.rfl
  | some e =>
    -- the events of the state list are all recorded, under their ids
    have he : e ∈ state := List.mem_reverse.mp (List.mem_of_find?_eq_some hlast)
    have hid : e.id ∈ kept.map Event.id :=
      (hkept.ids _).mpr (mem_ids_seeds.mpr (List.mem_map_of_mem (List.mem_append_left _ he)))
    have hcontains : (seeded roomId version state chain).contains e.id = true :=
      contains_iff.mpr (by rw [heq]; exact hid)
    exact iff_of_true hcontains rfl

/-- A join goes through iff it is of the room that was asked for and the state list has a creation. -/
theorem exists_ofRemoteJoin_iff :
    (∃ r, ofRemoteJoin version roomId state chain join = .ok r) ↔
      join.roomId = roomId ∧ ∃ e ∈ state, e.type = "m.room.create" ∧ e.stateKey = some "" := by
  have hcreate := stateEvent?_seeded_isSome roomId version state chain .create
  constructor
  · rintro ⟨r, hr⟩
    obtain ⟨hroom, hsome, -⟩ := ofRemoteJoin_iff.mp hr
    exact ⟨hroom, hcreate.mp hsome⟩
  · rintro ⟨hroom, hstate⟩
    exact ⟨_, ofRemoteJoin_iff.mpr ⟨hroom, hcreate.mpr hstate, rfl⟩⟩

/-- The state of a joined room: the last event of the state list at each place, and the join in its
own. -/
theorem find?_state_ofRemoteJoin (h : ofRemoteJoin version roomId state chain join = .ok r)
    (place : StateKey) : Table.find? place r.state =
      if join.place? = some place then some join.id else (lastAt place state).map Event.id := by
  obtain ⟨-, -, rfl⟩ := ofRemoteJoin_iff.mp h
  obtain ⟨kept, -, heq⟩ := seeded_eq roomId version state chain
  have hstate : (seeded roomId version state chain).state = stateOf state := by rw [heq]
  show Table.find? place (setState _ join).state = _
  rw [find?_state_setState, hstate, find?_stateOf]

/-- Where an id tells the event, a joined room has recorded all that it was given. -/
theorem mem_ofRemoteJoin_iff (h : ofRemoteJoin version roomId state chain join = .ok r)
    (hids : ∀ e ∈ state ++ chain ++ [join], ∀ f ∈ state ++ chain ++ [join], e.id = f.id → e = f)
    {e : Event} : e ∈ r.events ↔ e ∈ state ∨ e ∈ chain ∨ e = join := by
  have hsent : e ∈ state ∨ e ∈ chain ∨ e = join ↔ e ∈ state ++ chain ++ [join] := by
    simp only [List.mem_append, List.mem_singleton, or_assoc]
  rw [mem_ofRemoteJoin h, hsent]
  constructor
  · rintro (rfl | ⟨-, he⟩)
    · exact List.mem_append_right _ (List.mem_singleton_self _)
    · exact List.mem_append_left _ (mem_of_mem_seeds (List.mem_of_find?_eq_some he))
  · intro he
    have hjoin : join ∈ state ++ chain ++ [join] :=
      List.mem_append_right _ (List.mem_singleton_self _)
    by_cases hid : e.id = join.id
    · exact .inl (hids e he join hjoin hid)
    · -- the event that is recorded under the id is this one
      have hseed : e ∈ state ++ chain :=
        (List.mem_append.mp he).resolve_right fun hj => hid (List.mem_singleton.mp hj ▸ rfl)
      obtain ⟨f, hfgiven, hfid, hf⟩ := exists_first_seed hseed
      have hfe : f = e := hids f (List.mem_append_left _ hfgiven) e he hfid
      exact .inr ⟨hid, hfe ▸ hf⟩

/-- The timeline of a joined room: what is kept of the seeds, and the join behind it. -/
theorem timeline_ofRemoteJoin (h : ofRemoteJoin version roomId state chain join = .ok r) :
    ∃ kept, KeptOf (seeds state chain) kept ∧ r.timeline = kept.map Event.id ++ [join.id] := by
  obtain ⟨-, -, rfl⟩ := ofRemoteJoin_iff.mp h
  obtain ⟨kept, hkept, heq⟩ := seeded_eq roomId version state chain
  refine ⟨kept, hkept, ?_⟩
  show (setState _ join).timeline ++ [join.id] = _
  rw [timeline_setState, heq]
  rfl

end Joined

/-- What makes a joined room, where an id tells the event. The join goes through iff it is of the
room that was asked for and the state list has a creation. The room has then recorded all that came
along and the join, which is its only forward extremity, and its state is the last event of the state
list at each place, and the join in its own. The room depends on the set of events in the auth chain
only, and not on the order of a state list that sets no place twice. -/
theorem ofRemoteJoin_order_free (version : RoomVersion) (roomId : String) {state chain : List Event}
    {join : Event}
    (hids : ∀ e ∈ state ++ chain ++ [join], ∀ f ∈ state ++ chain ++ [join], e.id = f.id → e = f) :
    ((∃ r, ofRemoteJoin version roomId state chain join = .ok r) ↔
      join.roomId = roomId ∧ ∃ e ∈ state, e.type = "m.room.create" ∧ e.stateKey = some "") ∧
    (∀ r, ofRemoteJoin version roomId state chain join = .ok r →
      (∀ e, e ∈ r.events ↔ e ∈ state ∨ e ∈ chain ∨ e = join) ∧
      r.forwardExtremities = [join.id] ∧
      ∀ place, Table.find? place r.state =
        if join.place? = some place then some join.id else (lastAt place state).map Event.id) ∧
    (∀ chain', (∀ e, e ∈ chain' ↔ e ∈ chain) →
      ofRemoteJoin version roomId state chain' join =
        ofRemoteJoin version roomId state chain join) ∧
    ∀ state', state'.Perm state → (state.filterMap Event.place?).Nodup →
      ofRemoteJoin version roomId state' chain join =
        ofRemoteJoin version roomId state chain join := by
  have hsent : ∀ e ∈ state ++ chain, ∀ f ∈ state ++ chain, e.id = f.id → e = f :=
    fun e he f hf => hids e (List.mem_append_left _ he) f (List.mem_append_left _ hf)
  refine ⟨exists_ofRemoteJoin_iff, fun r h => ⟨fun e => mem_ofRemoteJoin_iff h hids,
    (ofRemoteJoin_ok h).1, find?_state_ofRemoteJoin h⟩, ?_, ?_⟩
  · intro chain' hchain
    refine ofRemoteJoin_congr hsent (fun e => ?_) rfl
    rw [List.mem_append, List.mem_append, hchain]
  · intro state' hperm hplaces
    refine ofRemoteJoin_congr hsent (fun e => ?_) (stateOf_perm hperm hplaces)
    rw [List.mem_append, List.mem_append, hperm.mem_iff]

/-- A membership that the join takes the place of. -/
def inviteSeed : Event :=
  ⟨"$4", .default, ⟨"!r:a", "", "m.room.member", some "@u:a", .obj [], ["$0"], [], 2, 0⟩, .null⟩

def inviteAccepted : Event :=
  ⟨"$5", .default, ⟨"!r:a", "@u:a", "m.room.member", some "@u:a", .obj [], ["$4"], [], 3, 0⟩, .null⟩

/-- A room whose auth chain repeats the creation, and repeats an event as deep as the invite. -/
theorem ofRemoteJoin_of_repeated_chain :
    ∃ r, ofRemoteJoin .default "!r:a" [inviteSeed, creationSeed]
        [lateParent, creationSeed, lateParent] inviteAccepted = .ok r ∧
      lateParent ∈ r.events ∧ r.forwardExtremities = ["$5"] ∧
      Table.find? (.member "@u:a") r.state = some "$5" ∧
      ofRemoteJoin .default "!r:a" [inviteSeed, creationSeed] [creationSeed, lateParent]
        inviteAccepted = .ok r ∧
      ofRemoteJoin .default "!r:a" [creationSeed, inviteSeed]
        [lateParent, creationSeed, lateParent] inviteAccepted = .ok r := by
  have hids : ∀ e ∈ [inviteSeed, creationSeed] ++ [lateParent, creationSeed, lateParent] ++
      [inviteAccepted], ∀ f ∈ [inviteSeed, creationSeed] ++
      [lateParent, creationSeed, lateParent] ++ [inviteAccepted], e.id = f.id → e = f := by
    simp [inviteSeed, creationSeed, lateParent, inviteAccepted, bare]
  obtain ⟨hexists, hroom, hchain, hstate⟩ := ofRemoteJoin_order_free .default "!r:a" hids
  obtain ⟨r, hr⟩ := hexists.mpr ⟨rfl, creationSeed, by simp, rfl, rfl⟩
  obtain ⟨hevents, htips, hplaces⟩ := hroom r hr
  refine ⟨r, hr, (hevents _).mpr (.inr (.inl List.mem_cons_self)), htips, ?_, ?_, ?_⟩
  · rw [hplaces]
    exact if_pos rfl
  · rw [hchain _ fun e => by simp +contextual [or_comm], hr]
  · rw [hstate _ (List.Perm.swap ..) (by decide), hr]

end Homeserver.Room
