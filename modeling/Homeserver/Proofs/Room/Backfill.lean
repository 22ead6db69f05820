/-
Backfill: a walk back from the forward extremities of a room that grew from an empty one finds all
of the room. Every event that is no extremity has a child, which is deeper; as no event is deeper
than the room, going from child to child ends at an extremity, and the walk comes back the same way.
-/
import Homeserver.Proofs.Room.Order
import Homeserver.Proofs.Room.State
import Homeserver.Proofs.Room.Walk

namespace Homeserver.Room

/-! ## From an event up to an extremity -/

theorem WellFormed.exists_child {r : Room} (hr : r.WellFormed) {e : Event} (he : e ∈ r.events)
    (htip : e.id ∉ r.forwardExtremities) : ∃ f ∈ r.events, e.id ∈ f.prevEvents := by
  by_contra hnone
  push Not at hnone
  exact htip ((hr.childless e.id).mpr ⟨contains_iff.mpr (List.mem_map_of_mem he), hnone⟩)

/-- Parents lead from the forward extremities to every other event, over events of which none is
too low. -/
theorem Settled.between_tips {r : Room} (hr : r.Settled) {minDepth : Int}
    (hdeep : ∀ e ∈ r.events, minDepth ≤ e.depth) {e : Event} (he : e ∈ r.events)
    (htip : e.id ∉ r.forwardExtremities) : r.Between [] r.forwardExtremities minDepth e := by
  refine ⟨?_, htip⟩
  -- the induction is on how far below the depth of the room the event lies
  induction hn : (r.depth - e.depth).toNat using Nat.strongRecOn generalizing e with
  | _ n ih =>
    obtain ⟨f, hf, hparent⟩ := hr.exists_child he htip
    have hfound : r.event? e.id = some e := hr.event?_of_mem he
    have henter : MayVisit [] minDepth e := ⟨List.not_mem_nil, hdeep e he⟩
    by_cases hft : f.id ∈ r.forwardExtremities
    · have hlatest : f ∈ r.forwardExtremities.filterMap r.event? :=
        List.mem_filterMap.mpr ⟨f.id, hft, hr.event?_of_mem hf⟩
      exact .start (List.mem_flatMap.mpr ⟨f, hlatest, hparent⟩) hfound henter
    · have habove := (hr.depth f hf).above e he hparent
      have hbelow := hr.depth_le f hf
      have hreach := ih _ (by omega) hf hft rfl
      exact .step hreach hparent hfound henter

/-- A walk back from the forward extremities finds exactly the other events, if neither its limit nor
its least depth holds it up. -/
theorem Settled.mem_backfill {r : Room} (hr : r.Settled) {limit : Nat} {minDepth : Int}
    (hlimit : r.events.length ≤ limit) (hdeep : ∀ e ∈ r.events, minDepth ≤ e.depth) {e : Event} :
    e ∈ r.eventsBetween [] r.forwardExtremities limit minDepth ↔
      e ∈ r.events ∧ e.id ∉ r.forwardExtremities := by
  constructor
  · intro he
    obtain ⟨hreach, htip⟩ := between_of_mem he
    exact ⟨(mem_of_event? hreach.event?).1, htip⟩
  · rintro ⟨he, htip⟩
    exact (hr.between_tips hdeep he htip).mem hlimit

/-! ## Parents first -/

/-- Events of a room in the order of depth stand behind their parents, if all of these are among
them. -/
theorem WellFormed.parentsFirst_sorted {r : Room} (hr : r.WellFormed) {l : List Event}
    (hl : ∀ e ∈ l, e ∈ r.events)
    (hclosed : ∀ e ∈ l, ∀ f ∈ r.events, f.id ∈ e.prevEvents → f ∈ l) :
    ParentsFirst (sortByDepth l) := by
  intro pre e post hsplit p hp
  have he : e ∈ sortByDepth l := hsplit ▸ List.mem_append_right pre List.mem_cons_self
  have he : e ∈ l := List.mem_mergeSort.mp he
  obtain ⟨f, hf⟩ := event?_isSome (hr.parent_contains (hl e he) hp)
  obtain ⟨hrecorded, rfl⟩ := mem_of_event? hf
  have hlt := (hr.depth e (hl e he)).above f hrecorded hp
  have hmem : f ∈ sortByDepth l := List.mem_mergeSort.mpr (hclosed e he f hrecorded hp)
  exact List.mem_map_of_mem (mem_before_of_depth_lt hsplit hmem hlt)

/-! ## Rooms that grew from an empty one -/

theorem one_le_depth {roomId : String} {version : RoomVersion} {calls : List Call} :
    ∀ e ∈ ((Room.new roomId version).afterAll calls).events, 1 ≤ e.depth :=
  (wellFormed_afterAll roomId version calls).one_le_depth

/-- Backfill is complete. Take a room after any run of calls on an empty one. What is served from
nothing up to the forward extremities, with a limit that is no less than the number of recorded
events and a least depth of at most one, is every recorded event but the forward extremities, each
once and behind all its parents. -/
theorem backfill_complete (roomId : String) (version : RoomVersion) (calls : List Call)
    {limit : Nat} {minDepth : Int}
    (hlimit : ((Room.new roomId version).afterAll calls).events.length ≤ limit)
    (hdepth : minDepth ≤ 1) :
    let r := (Room.new roomId version).afterAll calls
    let served := r.eventsBetween [] r.forwardExtremities limit minDepth
    (∀ e, e ∈ served ↔ e ∈ r.events ∧ e.id ∉ r.forwardExtremities) ∧
      (served.map Event.id).Nodup ∧ ParentsFirst served := by
  intro r served
  have hr : r.Settled := settled_afterAll roomId version calls
  have hdeep : ∀ e ∈ r.events, minDepth ≤ e.depth :=
    fun e he => Int.le_trans hdepth (one_le_depth e he)
  have hmem : ∀ e, e ∈ served ↔ e ∈ r.events ∧ e.id ∉ r.forwardExtremities :=
    fun e => hr.mem_backfill hlimit hdeep
  refine ⟨hmem, nodup_eventsBetween limit, ?_⟩
  apply hr.parentsFirst_sorted
  · intro e he
    exact ((hmem e).mp (List.mem_mergeSort.mpr he)).1
  · intro e he f hf hparent
    have he := (hmem e).mp (List.mem_mergeSort.mpr he)
    -- a parent has a child, so it is no extremity
    have hf : f ∈ served :=
      (hmem f).mpr ⟨hf, fun htip => ((hr.childless f.id).mp htip).2 e he.1 hparent⟩
    exact List.mem_mergeSort.mp hf

/-- From the merge of two forks all else of their room is served. -/
theorem backfill_of_merge : rejoined.events.length ≤ 4 ∧ (0 : Int) ≤ 1 ∧
    let served := rejoined.eventsBetween [] rejoined.forwardExtremities 4 0
    forkRoot ∈ served ∧ leftFork ∈ served ∧ rightFork ∈ served ∧ mergeOfForks ∉ served ∧
      ParentsFirst served := by
  have hlimit : rejoined.events.length ≤ 4 := by decide
  have hdepth : (0 : Int) ≤ 1 := by decide
  obtain ⟨hmem, -, hfirst⟩ := backfill_complete "!r:a" .default
    [.add forkRoot, .fork leftFork, .fork rightFork, .fork mergeOfForks] hlimit hdepth
  refine ⟨hlimit, hdepth, (hmem _).mpr ⟨?_, by decide⟩, (hmem _).mpr ⟨?_, by decide⟩,
    (hmem _).mpr ⟨?_, by decide⟩, fun h => absurd ((hmem _).mp h).2 (by decide), hfirst⟩
  · exact (mem_of_event? (show rejoined.event? "$0" = some forkRoot from rfl)).1
  · exact (mem_of_event? (show rejoined.event? "$1" = some leftFork from rfl)).1
  · exact (mem_of_event? (show rejoined.event? "$2" = some rightFork from rfl)).1

end Homeserver.Room
