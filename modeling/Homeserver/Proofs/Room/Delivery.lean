/-
Delivery of a room's events in different orders: an empty room that takes a list of events as forks
takes each order of them in which parents come first, and becomes a room with the same graph.

What the room asks of the events on the way is said of the list as a whole (`Deliverable`). Of this
only the place of the parents and of the root depends on the order, and the root comes first as soon
as parents do.
-/
import Homeserver.Proofs.Room.Graph
import Mathlib.Data.List.Induction

namespace Homeserver

/-! ## Deliverable lists -/

/-- What an empty room asks of events that it is to take in this order. -/
structure Deliverable (roomId : String) (l : List Event) : Prop where
  room : ∀ e ∈ l, e.roomId = roomId
  nodup : (l.map Event.id).Nodup
  parents : ParentsFirst l
  root : SingleRoot l
  depth : ∀ e ∈ l, OneDeeper l e
  depth_le : ∀ e ∈ l, e.depth ≤ Room.maxDepth

theorem Deliverable.init {roomId : String} {l : List Event} {e : Event}
    (h : Deliverable roomId (l ++ [e])) : Deliverable roomId l where
  room := fun f hf => h.room f (List.mem_append_left _ hf)
  nodup := by
    have := h.nodup
    rw [List.map_append] at this
    exact (List.nodup_append.mp this).1
  parents := (parentsFirst_concat.mp h.parents).1
  root := (singleRoot_concat.mp h.root).1
  depth := fun f hf =>
    have hf' := List.mem_append_left [e] hf
    (oneDeeper_concat (h.parents.last_childless h.nodup f hf')).mp (h.depth f hf')
  depth_le := fun f hf => h.depth_le f (List.mem_append_left _ hf)

/-- The last of deliverable events is one deeper than its parents, which stand before it. -/
theorem Deliverable.last_depth {roomId : String} {l : List Event} {e : Event}
    (h : Deliverable roomId (l ++ [e])) : OneDeeper l e :=
  have he := List.mem_append_right l (List.mem_singleton.mpr rfl)
  (oneDeeper_concat (h.parents.last_childless h.nodup e he)).mp (h.depth e he)

theorem ParentsFirst.head {e : Event} {l : List Event} (h : ParentsFirst (e :: l)) :
    e.prevEvents = [] :=
  List.eq_nil_iff_forall_not_mem.mpr fun p hp => nomatch h [] e l rfl p hp

theorem SingleRoot.unique {l : List Event} (h : SingleRoot l) {e f : Event} (he : e ∈ l)
    (hf : f ∈ l) (hep : e.prevEvents = []) (hfp : f.prevEvents = []) : e = f := by
  obtain ⟨pre, post, rfl⟩ := List.append_of_mem he
  obtain rfl := (h pre e post rfl).mp hep
  obtain ⟨pre', post', hl⟩ := List.append_of_mem hf
  obtain rfl := (h pre' f post' hl).mp hfp
  exact (List.cons.inj hl).1

/-- With parents first, the root of deliverable events comes first in any order. -/
theorem Deliverable.singleRoot_perm {roomId : String} {l l' : List Event}
    (h : Deliverable roomId l) (hp : l.Perm l') (hl : ParentsFirst l') : SingleRoot l' := by
  intro pre e post hs
  cases pre with
  | nil => exact ⟨fun _ => rfl, fun _ => (hs ▸ hl).head⟩
  | cons f pre =>
    refine ⟨fun he => ?_, fun h => nomatch h⟩
    have hf : f.prevEvents = [] := by rw [hs, List.cons_append] at hl; exact hl.head
    have hmf : f ∈ l := hp.mem_iff.mpr (by rw [hs]; simp)
    have hme : e ∈ l := hp.mem_iff.mpr (by rw [hs]; simp)
    -- two roots are one event, which would stand in the list twice
    have hn := (hp.map Event.id).nodup_iff.mp h.nodup
    rw [hs, h.root.unique hmf hme hf he] at hn
    simp at hn

theorem Deliverable.perm {roomId : String} {l l' : List Event} (h : Deliverable roomId l)
    (hp : l.Perm l') (hl : ParentsFirst l') : Deliverable roomId l' where
  room := fun e he => h.room e (hp.mem_iff.mpr he)
  nodup := (hp.map Event.id).nodup_iff.mp h.nodup
  parents := hl
  root := h.singleRoot_perm hp hl
  depth := fun e he => by
    obtain ⟨h₁, h₂, h₃⟩ := h.depth e (hp.mem_iff.mpr he)
    refine ⟨h₁, fun f hf => h₂ f (hp.mem_iff.mpr hf), fun hne => ?_⟩
    obtain ⟨f, hf, hfp⟩ := h₃ hne
    exact ⟨f, hp.mem_iff.mp hf, hfp⟩
  depth_le := fun e he => h.depth_le e (hp.mem_iff.mpr he)

namespace Room

/-! ## Delivery -/

/-- Takes events as forks, one after the other; the first one that is refused ends it. -/
def deliver (r : Room) (l : List Event) : Except EventError Room := l.foldlM addForkEvent r

/-- The room after deliverable events: the last of them is appended to the room of the others. -/
theorem deliver_concat_ok {r s : Room} {l : List Event} {e : Event} :
    r.deliver (l ++ [e]) = .ok s ↔ ∃ t, r.deliver l = .ok t ∧ t.addForkEvent e = .ok s := by
  unfold deliver
  rw [List.foldlM_append, bind_ok]
  simp only [List.foldlM_cons, List.foldlM_nil, bind_pure]

/-- The graph of a room after the delivery of these events. -/
structure Delivered (roomId : String) (l : List Event) (r : Room) : Prop extends r.WellFormed where
  roomId_eq : r.roomId = roomId
  events_eq : r.events = l
  members : ∀ e ∈ r.events, e.roomId = roomId
  depths : ∀ e ∈ r.events, e.depth ≤ maxDepth
  depth_eq : r.depth = (l.map Event.depth).foldl max 0

theorem delivered_of_deliver {roomId : String} {version : RoomVersion} {l : List Event} {r : Room}
    (h : (Room.new roomId version).deliver l = .ok r) : Delivered roomId l r := by
  induction l using List.reverseRecOn generalizing r with
  | nil =>
    cases h
    exact ⟨wellFormed_new roomId version, rfl, rfl, fun _ h => (nomatch h), fun _ h => (nomatch h),
      rfl⟩
  | append_singleton l e ih =>
    obtain ⟨t, ht, he⟩ := deliver_concat_ok.mp h
    have hd := ih ht
    obtain ⟨ha, rfl⟩ := appends_of_addForkEvent he
    have hroom : e.roomId = roomId := ha.room.trans hd.roomId_eq
    refine ⟨hd.toWellFormed.append ha, ?_, ?_, ?_, ?_, ?_⟩
    · rw [roomId_append, hd.roomId_eq]
    · rw [events_append ha.new, hd.events_eq]
    · intro f hf
      rw [events_append ha.new] at hf
      rcases List.mem_append.mp hf with hf | hf
      · exact hd.members f hf
      · rw [List.mem_singleton.mp hf, hroom]
    · intro f hf
      rw [events_append ha.new] at hf
      rcases List.mem_append.mp hf with hf | hf
      · exact hd.depths f hf
      · rw [List.mem_singleton.mp hf]
        exact ha.depth_le
    · rw [depth_append, hd.depth_eq, List.map_append, List.foldl_append]
      rfl

theorem Delivered.deliverable {roomId : String} {l : List Event} {r : Room}
    (h : Delivered roomId l r) : Deliverable roomId l where
  room := fun e he => h.members e (h.events_eq ▸ he)
  nodup := h.events_eq ▸ h.nodup_ids
  parents := h.events_eq ▸ h.parents
  root := h.events_eq ▸ h.root
  depth := fun e he => h.events_eq ▸ h.depth e (h.events_eq ▸ he)
  depth_le := fun e he => h.depths e (h.events_eq ▸ he)

/-- Deliverable events are taken. -/
theorem deliver_of_deliverable {roomId : String} {l : List Event} (version : RoomVersion)
    (h : Deliverable roomId l) : ∃ r, (Room.new roomId version).deliver l = .ok r := by
  induction l using List.reverseRecOn with
  | nil => exact ⟨_, rfl⟩
  | append_singleton l e ih =>
    obtain ⟨t, ht⟩ := ih h.init
    have hd := delivered_of_deliver ht
    have hparents : ∀ p ∈ e.prevEvents, t.contains p = true := fun p hp =>
      contains_iff.mpr (hd.events_eq ▸ (parentsFirst_concat.mp h.parents).2 p hp)
    have hfits : t.Fits e := by
      constructor
      case room => rw [hd.roomId_eq]; exact h.room e (by simp)
      case new =>
        rw [Bool.eq_false_iff, Ne, contains_iff, hd.events_eq]
        have := h.nodup
        rw [List.map_append] at this
        exact fun hm => (List.nodup_append.mp this).2.2 _ hm _ (List.mem_singleton.mpr rfl) rfl
      case root => rw [hd.events_eq]; exact (singleRoot_concat.mp h.root).2.mp
      case depth => exact (hd.depth_iff hparents).mpr (hd.events_eq ▸ h.last_depth)
      case depth_le => exact h.depth_le e (by simp)
    exact ⟨t.append e, deliver_concat_ok.mpr ⟨t, ht, addForkEvent_ok.mpr ⟨hfits, hparents, rfl⟩⟩⟩

/-! ## Order -/

/-- Rooms in which the same events are recorded find the same under every id. -/
theorem Consistent.event?_congr {r s : Room} (hr : r.Consistent) (hs : s.Consistent)
    (h : ∀ e, e ∈ r.events ↔ e ∈ s.events) (id : String) : r.event? id = s.event? id := by
  refine Option.ext fun e => ?_
  rw [event?_eq_some hr.nodup_ids, event?_eq_some hs.nodup_ids, h e]

/-- Rooms that record the same events with their ancestors have the same extremities. -/
theorem WellFormed.extremities_congr {r s : Room} (hr : r.WellFormed) (hs : s.WellFormed)
    (h : ∀ e, e ∈ r.events ↔ e ∈ s.events) : r.extremities = s.extremities := by
  refine KeySet.ext_of_sorted hr.ordered hs.ordered fun id => ?_
  have hr' := hr.childless id
  have hs' := hs.childless id
  unfold forwardExtremities at hr' hs'
  rw [hr', hs', contains, hr.event?_congr hs.toConsistent h, ← contains]
  exact and_congr_right fun _ => forall_congr' fun e => imp_congr_left (h e)

/-- An event of which only the place in a room's graph counts. -/
def bare (roomId id : String) (prevEvents : List String) (depth : Int) : Event where
  id
  version := .default
  fields := ⟨roomId, "", "", none, .obj [], prevEvents, [], depth, 0⟩
  json := .null

/-- The order of delivery does not matter to the graph. Events that an empty room takes as forks in
one order it takes in every order in which parents come first, and then the same events are
recorded, the forward extremities are the same, and so is the depth. -/
theorem deliver_perm {roomId : String} {version : RoomVersion} {l l' : List Event} {r : Room}
    (h : (Room.new roomId version).deliver l = .ok r) (hp : l.Perm l') (hl : ParentsFirst l') :
    ∃ r', (Room.new roomId version).deliver l' = .ok r' ∧
      (r'.events.Perm r.events ∧ ∀ id, r'.event? id = r.event? id) ∧
      r'.forwardExtremities = r.forwardExtremities ∧
      r'.depth = r.depth := by
  have hd := delivered_of_deliver h
  obtain ⟨r', hr'⟩ := deliver_of_deliverable version (hd.deliverable.perm hp hl)
  have hd' := delivered_of_deliver hr'
  have hmem : ∀ e, e ∈ r'.events ↔ e ∈ r.events := fun e => by
    rw [hd.events_eq, hd'.events_eq]; exact hp.mem_iff.symm
  refine ⟨r', hr', ⟨?_, hd'.event?_congr hd.toConsistent hmem⟩, ?_, ?_⟩
  · rw [hd.events_eq, hd'.events_eq]; exact hp.symm
  · unfold forwardExtremities
    rw [hd'.extremities_congr hd.toWellFormed hmem]
  · rw [hd.depth_eq, hd'.depth_eq]
    exact (hp.map Event.depth).symm.foldl_eq' (fun a _ b _ d => by omega) 0

/-- A root, two forks on it and an event that merges them, with the forks in either order. -/
theorem deliver_perm_of_forks :
    let root := bare "!r:a" "$0" [] 1
    let left := bare "!r:a" "$1" ["$0"] 2
    let right := bare "!r:a" "$2" ["$0"] 2
    let merge := bare "!r:a" "$3" ["$1", "$2"] 3
    ∃ r r', (Room.new "!r:a" .default).deliver [root, left, right, merge] = .ok r ∧
      (Room.new "!r:a" .default).deliver [root, right, left, merge] = .ok r' ∧
      r'.forwardExtremities = r.forwardExtremities ∧ r.forwardExtremities = ["$3"] := by
  intro root left right merge
  have h : (Room.new "!r:a" .default).deliver [root, left, right, merge] =
      .ok ([root, left, right, merge].foldl append (Room.new "!r:a" .default)) := rfl
  have hl : ParentsFirst [root, right, left, merge] := by
    refine (parentsFirst_concat (l := [root, right, left])).mpr ⟨?_, by decide⟩
    refine (parentsFirst_concat (l := [root, right])).mpr ⟨?_, by decide⟩
    refine (parentsFirst_concat (l := [root])).mpr ⟨?_, by decide⟩
    exact (parentsFirst_concat (l := [])).mpr ⟨parentsFirst_nil, by decide⟩
  obtain ⟨r', hr', -, he, -⟩ := deliver_perm h ((List.Perm.swap right left [merge]).cons root) hl
  exact ⟨_, r', h, hr', he, by decide⟩

end Room

end Homeserver
