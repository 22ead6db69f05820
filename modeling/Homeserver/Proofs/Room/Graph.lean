/-
The graph of a room that grew from an empty one, by any run of calls: the timeline lists each
recorded event once and behind its parents, only its first event has none, depths count the longest
way from the root, and the forward extremities are the events without children.

The extremities are kept up by one step at a time, so the invariant (`WellFormed`) carries beside
them that ids are new and parents are recorded when an event comes in.
-/
import Homeserver.Proofs.Lists
import Homeserver.Proofs.Room.Growth
import Mathlib.Data.List.Induction
import Mathlib.Data.List.Nodup

namespace Homeserver

/-! ## Lists of events -/

/-- Each event of the list stands behind all its parents. -/
def ParentsFirst (l : List Event) : Prop :=
  ∀ pre e post, l = pre ++ e :: post → ∀ p ∈ e.prevEvents, p ∈ pre.map Event.id

/-- The first event of the list has no parents, and no other is without. -/
def SingleRoot (l : List Event) : Prop :=
  ∀ pre e post, l = pre ++ e :: post → (e.prevEvents = [] ↔ pre = [])

/-- The depth of an event counts from its deepest parent among these events, and a root has depth
one. -/
structure OneDeeper (l : List Event) (e : Event) : Prop where
  root : e.prevEvents = [] → e.depth = 1
  above : ∀ f ∈ l, f.id ∈ e.prevEvents → f.depth < e.depth
  deepest : e.prevEvents ≠ [] → ∃ f ∈ l, f.id ∈ e.prevEvents ∧ e.depth = f.depth + 1

theorem parentsFirst_concat {l : List Event} {e : Event} :
    ParentsFirst (l ++ [e]) ↔ ParentsFirst l ∧ ∀ p ∈ e.prevEvents, p ∈ l.map Event.id :=
  forall_split_concat

theorem singleRoot_concat {l : List Event} {e : Event} :
    SingleRoot (l ++ [e]) ↔ SingleRoot l ∧ (e.prevEvents = [] ↔ l = []) :=
  forall_split_concat

theorem parentsFirst_nil : ParentsFirst [] := fun pre e post h => by simp at h

theorem singleRoot_nil : SingleRoot [] := fun pre e post h => by simp at h

theorem ParentsFirst.parent_mem {l : List Event} (h : ParentsFirst l) {e : Event} (he : e ∈ l)
    {p : String} (hp : p ∈ e.prevEvents) : p ∈ l.map Event.id := by
  obtain ⟨pre, post, rfl⟩ := List.append_of_mem he
  have := h pre e post rfl p hp
  rw [List.map_append]
  exact List.mem_append_left _ this

/-- The last of a list of different events in which parents come first is nobody's parent. -/
theorem ParentsFirst.last_childless {l : List Event} {e : Event} (h : ParentsFirst (l ++ [e]))
    (hn : ((l ++ [e]).map Event.id).Nodup) : ∀ f ∈ l ++ [e], e.id ∉ f.prevEvents := by
  intro f hf hp
  have hnot : e.id ∉ l.map Event.id := by
    rw [List.map_append] at hn
    intro hm
    exact (List.nodup_append.mp hn).2.2 _ hm _ (List.mem_singleton.mpr rfl) rfl
  obtain ⟨h₁, h₂⟩ := parentsFirst_concat.mp h
  rcases List.mem_append.mp hf with hf | hf
  · exact hnot (h₁.parent_mem hf hp)
  · rw [List.mem_singleton.mp hf] at hp
    exact hnot (h₂ _ hp)

/-- An event that is nobody's parent in a list changes no depth in it. -/
theorem oneDeeper_concat {l : List Event} {e f : Event} (h : e.id ∉ f.prevEvents) :
    OneDeeper (l ++ [e]) f ↔ OneDeeper l f := by
  have hmem : ∀ g ∈ l ++ [e], g.id ∈ f.prevEvents → g ∈ l := by
    intro g hg hp
    rcases List.mem_append.mp hg with hg | hg
    · exact hg
    · rw [List.mem_singleton.mp hg] at hp
      exact absurd hp h
  constructor
  · rintro ⟨h₁, h₂, h₃⟩
    refine ⟨h₁, fun g hg => h₂ g (List.mem_append_left _ hg), fun hne => ?_⟩
    obtain ⟨g, hg, hp, hd⟩ := h₃ hne
    exact ⟨g, hmem g hg hp, hp, hd⟩
  · rintro ⟨h₁, h₂, h₃⟩
    refine ⟨h₁, fun g hg hp => h₂ g (hmem g hg hp) hp, fun hne => ?_⟩
    obtain ⟨g, hg, hp, hd⟩ := h₃ hne
    exact ⟨g, List.mem_append_left _ hg, hp, hd⟩

/-- Where parents come first and depths count from the deepest of them, none is below one. -/
theorem ParentsFirst.one_le_depth {l : List Event} (h : ParentsFirst l)
    (hn : (l.map Event.id).Nodup) (hd : ∀ e ∈ l, OneDeeper l e) : ∀ e ∈ l, 1 ≤ e.depth := by
  induction l using List.reverseRecOn with
  | nil => exact fun _ h => nomatch h
  | append_singleton l e ih =>
    have hlast := h.last_childless hn
    have hold : ∀ f ∈ l, 1 ≤ f.depth := by
      rw [List.map_append] at hn
      refine ih (parentsFirst_concat.mp h).1 (List.nodup_append.mp hn).1 fun f hf => ?_
      have hf := List.mem_append_left [e] hf
      exact (oneDeeper_concat (hlast f hf)).mp (hd f hf)
    rw [List.forall_mem_append, List.forall_mem_singleton]
    refine ⟨hold, ?_⟩
    have he : e ∈ l ++ [e] := List.mem_append_right l (List.mem_singleton.mpr rfl)
    have hdeep : OneDeeper l e := (oneDeeper_concat (hlast e he)).mp (hd e he)
    by_cases hroot : e.prevEvents = []
    · exact Int.le_of_eq (hdeep.root hroot).symm
    · obtain ⟨f, hf, -, hdepth⟩ := hdeep.deepest hroot
      have := hold f hf
      omega

namespace Room

/-! ## Depth -/

theorem deepestParent_root {r : Room} {e : Event} (h : e.prevEvents = []) :
    r.deepestParent e = 0 := by
  unfold deepestParent; rw [h]; rfl

/-- The deepest of an event's recorded parents is the deepest of them. -/
theorem deepestParent_spec {r : Room} {e : Event} (hne : e.prevEvents ≠ [])
    (hp : ∀ p ∈ e.prevEvents, r.contains p = true) :
    (∃ p ∈ e.prevEvents, ∃ f, r.event? p = some f ∧ f.depth = r.deepestParent e) ∧
      ∀ p ∈ e.prevEvents, ∀ f, r.event? p = some f → f.depth ≤ r.deepestParent e := by
  unfold deepestParent
  generalize hl : (e.prevEvents.filterMap r.event?).map Event.depth = l
  have hmem : ∀ d, d ∈ l ↔ ∃ p ∈ e.prevEvents, ∃ f, r.event? p = some f ∧ f.depth = d := by
    intro d
    rw [← hl, List.mem_map]
    constructor
    · rintro ⟨f, hf, rfl⟩
      obtain ⟨p, hp, hf⟩ := List.mem_filterMap.mp hf
      exact ⟨p, hp, f, hf, rfl⟩
    · rintro ⟨p, hp, f, hf, rfl⟩
      exact ⟨f, List.mem_filterMap.mpr ⟨p, hp, hf⟩, rfl⟩
  cases hm : l.max? with
  | none =>
    obtain ⟨p, hpm⟩ := List.exists_mem_of_ne_nil _ hne
    obtain ⟨f, hf⟩ := event?_isSome (hp p hpm)
    have : f.depth ∈ l := (hmem _).mpr ⟨p, hpm, f, hf, rfl⟩
    rw [List.max?_eq_none_iff.mp hm] at this
    cases this
  | some m =>
    obtain ⟨h₁, h₂⟩ := List.max?_eq_some_iff.mp hm
    exact ⟨(hmem m).mp h₁, fun p hpm f hf => h₂ _ ((hmem _).mpr ⟨p, hpm, f, hf, rfl⟩)⟩

theorem Consistent.nodup_ids {r : Room} (hr : r.Consistent) : (r.events.map Event.id).Nodup :=
  hr.recorded ▸ hr.nodup

/-- Where no two events have one id, each is found under its own. -/
theorem event?_eq_some {r : Room} (hn : (r.events.map Event.id).Nodup) {id : String} {e : Event} :
    r.event? id = some e ↔ e ∈ r.events ∧ e.id = id := by
  constructor
  · exact mem_of_event?
  · rintro ⟨he, rfl⟩
    obtain ⟨f, hf⟩ := event?_isSome (contains_iff.mpr (List.mem_map_of_mem he))
    obtain ⟨hm, hid⟩ := mem_of_event? hf
    rw [hf, List.inj_on_of_nodup_map hn hm he hid]

theorem Consistent.event?_of_mem {r : Room} (hr : r.Consistent) {e : Event} (he : e ∈ r.events) :
    r.event? e.id = some e :=
  (event?_eq_some hr.nodup_ids).mpr ⟨he, rfl⟩

/-- The depth check asks that an event whose parents are recorded is one deeper than these. -/
theorem Consistent.depth_iff {r : Room} (hr : r.Consistent) {e : Event}
    (hp : ∀ p ∈ e.prevEvents, r.contains p = true) :
    e.depth = r.deepestParent e + 1 ↔ OneDeeper r.events e := by
  by_cases hne : e.prevEvents = []
  · rw [deepestParent_root hne]
    refine ⟨fun h => ⟨fun _ => h, fun f _ hf => ?_, fun h => absurd hne h⟩, fun h => h.root hne⟩
    rw [hne] at hf
    cases hf
  · obtain ⟨⟨p, hpm, g, hg, hgd⟩, hle⟩ := deepestParent_spec hne hp
    obtain ⟨hgm, rfl⟩ := mem_of_event? hg
    constructor
    · intro h
      refine ⟨fun h => absurd h hne, fun f hf hfp => ?_, fun _ => ⟨g, hgm, hpm, by omega⟩⟩
      have := hle f.id hfp f (hr.event?_of_mem hf)
      omega
    · intro h
      obtain ⟨f, hf, hfp, hd⟩ := h.deepest hne
      have h₁ := hle f.id hfp f (hr.event?_of_mem hf)
      have h₂ := h.above g hgm hpm
      omega

/-! ## The invariant -/

/-- The graph of a room that knows all ancestors of its events. -/
structure WellFormed (r : Room) : Prop extends r.Consistent where
  parents : ParentsFirst r.events
  root : SingleRoot r.events
  depth : ∀ e ∈ r.events, OneDeeper r.events e
  /-- The forward extremities are the recorded events without recorded children. -/
  childless : ∀ id, id ∈ r.forwardExtremities ↔
    r.contains id = true ∧ ∀ e ∈ r.events, id ∉ e.prevEvents

theorem WellFormed.parent_contains {r : Room} (hr : r.WellFormed) {e : Event} (he : e ∈ r.events)
    {p : String} (hp : p ∈ e.prevEvents) : r.contains p = true :=
  contains_iff.mpr (hr.parents.parent_mem he hp)

theorem WellFormed.one_le_depth {r : Room} (hr : r.WellFormed) : ∀ e ∈ r.events, 1 ≤ e.depth :=
  hr.parents.one_le_depth hr.nodup_ids hr.depth

theorem wellFormed_new (roomId : String) (version : RoomVersion) :
    (Room.new roomId version).WellFormed where
  toConsistent := consistent_new roomId version
  parents := parentsFirst_nil
  root := singleRoot_nil
  depth := fun _ h => nomatch h
  childless := fun _ => ⟨fun h => (nomatch h), fun h => (nomatch h.1)⟩

theorem WellFormed.append {r : Room} (hr : r.WellFormed) {e : Event} (he : r.Appends e) :
    (r.append e).WellFormed := by
  -- the parents of all events were there before the new one, so it is nobody's parent
  have hnew : e.id ∉ e.prevEvents := fun hp => he.ne_of_contains (he.parents _ hp) rfl
  have hold : ∀ f ∈ r.events, e.id ∉ f.prevEvents := fun f hf hp =>
    he.ne_of_contains (hr.parent_contains hf hp) rfl
  constructor
  case toConsistent => exact hr.toConsistent.append he.new
  case parents =>
    rw [events_append he.new]
    exact parentsFirst_concat.mpr ⟨hr.parents, fun p hp => contains_iff.mp (he.parents p hp)⟩
  case root =>
    rw [events_append he.new]
    exact singleRoot_concat.mpr ⟨hr.root, he.root, he.prevEvents_nil⟩
  case depth =>
    intro f hf
    rw [events_append he.new] at hf ⊢
    rcases List.mem_append.mp hf with hf | hf
    · exact (oneDeeper_concat (hold f hf)).mpr (hr.depth f hf)
    · rw [List.mem_singleton.mp hf]
      exact (oneDeeper_concat hnew).mpr ((hr.depth_iff he.parents).mp he.depth)
  case childless =>
    intro id
    -- its parents stop being extremities, and it becomes one as nobody's parent
    rw [mem_extremities_append, contains_append, events_append he.new, hr.childless]
    simp only [List.mem_append, List.mem_singleton, or_imp, forall_and, forall_eq]
    constructor
    · rintro (rfl | ⟨⟨h₁, h₂⟩, h₃⟩)
      · exact ⟨.inl rfl, hold, hnew⟩
      · exact ⟨.inr h₁, h₂, h₃⟩
    · rintro ⟨rfl | h₁, h₂, h₃⟩
      · exact .inl rfl
      · exact .inr ⟨⟨h₁, h₂⟩, h₃⟩

theorem Grows.wellFormed {r s : Room} {l : List Event} (h : r.Grows l s) (hr : r.WellFormed) :
    s.WellFormed :=
  (h.induction (P := WellFormed) (fun _ _ _ hr he => hr.append he) hr.toConsistent hr).2

/-- Every room that grew from an empty one is well formed. -/
theorem wellFormed_afterAll (roomId : String) (version : RoomVersion) (calls : List Call) :
    ((Room.new roomId version).afterAll calls).WellFormed := by
  obtain ⟨l, h⟩ := grows_afterAll (consistent_new roomId version).tips calls
  exact h.wellFormed (wellFormed_new roomId version)

theorem WellFormed.extremities_ne_nil {r : Room} (hr : r.WellFormed) (h : r.events ≠ []) :
    r.forwardExtremities ≠ [] := by
  rcases List.eq_nil_or_concat r.events with hnil | ⟨l, e, hl⟩
  · exact absurd hnil h
  · rw [List.concat_eq_append] at hl
    have hn := hr.nodup_ids
    have hp := hr.parents
    rw [hl] at hn hp
    refine List.ne_nil_of_mem ((hr.childless e.id).mpr ⟨?_, ?_⟩)
    · rw [contains_iff, hl]
      exact List.mem_map_of_mem (List.mem_append_right _ (List.mem_singleton.mpr rfl))
    · rw [hl]; exact hp.last_childless hn

theorem Consistent.extremities_nil {r : Room} (hr : r.Consistent) (h : r.events = []) :
    r.forwardExtremities = [] := by
  refine List.eq_nil_iff_forall_not_mem.mpr fun id hid => ?_
  have hrecorded := contains_iff.mp (hr.tips id hid)
  rw [h] at hrecorded
  cases hrecorded

/-- The graph of a room that any run of calls made of an empty one. The timeline lists every
recorded event once; exactly its first event has no parents; parents are listed before their
children; an event is one deeper than the deepest of its parents, and the root has depth one; and
the forward extremities are the recorded events that no recorded event has as a parent, of which
there is one as soon as there is an event. -/
theorem graph_of_run (roomId : String) (version : RoomVersion) (calls : List Call) :
    let r := (Room.new roomId version).afterAll calls
    (r.timeline.Nodup ∧ r.timeline = r.events.map Event.id) ∧
    SingleRoot r.events ∧
    ParentsFirst r.events ∧
    (∀ e ∈ r.events, OneDeeper r.events e) ∧
    (∀ id, id ∈ r.forwardExtremities ↔
      r.contains id = true ∧ ∀ e ∈ r.events, id ∉ e.prevEvents) ∧
    (r.isEmpty = false → r.forwardExtremities ≠ []) := by
  intro r
  have hr : r.WellFormed := wellFormed_afterAll roomId version calls
  refine ⟨⟨hr.nodup, hr.recorded⟩, hr.root, hr.parents, hr.depth, hr.childless, fun h => ?_⟩
  exact hr.extremities_ne_nil (by simpa [isEmpty] using h)

end Room

end Homeserver
