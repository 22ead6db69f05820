/-
Rooms that are made of templates alone, as a server makes its own rooms. A template that creates the
room is taken by an empty room only, and any other one only by a room whose state names the create
event. Those two are the same room as long as the create event has the empty state key; but the check
of templates asks for a state key of memberships only. So the first creation that passes the check
decides: if it has another state key or none, the room takes no event any more.
-/
import Homeserver.Proofs.Room.Creation
import Homeserver.Proofs.Room.Replay

namespace Homeserver

/-- The template of a create event that passes the check. -/
def EventTemplate.founds (t : EventTemplate) (version : RoomVersion) : Bool :=
  t.type = "m.room.create" && (t.check version).isOk

theorem EventTemplate.founds_iff {t : EventTemplate} {version : RoomVersion} :
    t.founds version = true ↔ t.type = "m.room.create" ∧ t.check version = .ok () := by
  unfold founds
  rw [Bool.and_eq_true, decide_eq_true_eq]
  cases t.check version <;> simp [Except.isOk, Except.toBool]

namespace Room

/-! ## One template -/

/-- An event made of a template that a room appends. -/
structure Takes (r : Room) (t : EventTemplate) (e : Event) : Prop extends r.Appends e where
  type_eq : e.type = t.type
  stateKey_eq : e.stateKey = t.stateKey
  check : t.check r.version = .ok ()
  start : r.checkStart t = .ok ()

theorem Takes.events_ne_nil {r : Room} {t : EventTemplate} {e : Event} (he : r.Takes t e) :
    (r.append e).events ≠ [] := by
  rw [events_append he.new]
  exact List.append_ne_nil_of_right_ne_nil _ (List.cons_ne_nil _ _)

theorem takes_of_createAndAdd {r next : Room} (hr : r.Anchored) {s : Identity} {now : Int}
    {t : EventTemplate} {e : Event} (h : r.createAndAdd s now t = .ok (e, next)) :
    r.Takes t e ∧ r.after (.create s now t) = r.append e := by
  obtain ⟨⟨u, hu, rfl⟩, hadd⟩ := createAndAdd_ok h
  obtain ⟨hcheck, hstart, depth, -, rfl⟩ := build_ok.mp hu
  obtain ⟨he, rfl⟩ := appends_of_addEvent hr hadd
  exact ⟨⟨he, rfl, rfl, hcheck, hstart⟩, after_create_of_ok h⟩

theorem after_create_cases {r : Room} (hr : r.Anchored) (s : Identity) (now : Int)
    (t : EventTemplate) : r.after (.create s now t) = r ∨
      ∃ e, r.Takes t e ∧ r.after (.create s now t) = r.append e := by
  cases hmade : r.createAndAdd s now t with
  | error err => exact .inl (after_create_of_error hmade)
  | ok made => exact .inr ⟨made.1, takes_of_createAndAdd hr hmade⟩

/-- An empty room takes every creation that passes the check. -/
theorem exists_takes_of_empty {r : Room} (hr : r.Settled) (hnil : r.events = []) (s : Identity)
    (now : Int) {t : EventTemplate} (ht : t.founds r.version = true) :
    ∃ e, r.Takes t e ∧ r.after (.create s now t) = r.append e := by
  obtain ⟨htype, hcheck⟩ := EventTemplate.founds_iff.mp ht
  have hnone : ∀ id, r.contains id = false := by
    intro id
    rw [Bool.eq_false_iff, ne_eq, contains_iff, hnil]
    exact List.not_mem_nil
  have htips : r.forwardExtremities = [] := hr.extremities_nil hnil
  let u := r.built s.serverName now t (r.depth + 1)
  let e := s.signEvent u
  have hflat : r.depth < maxDepth := by
    rw [hr.depth_nil hnil]
    decide
  have hbuild : r.build s.serverName now t = .ok u :=
    hr.build_iff.mpr ⟨hcheck, (checkStart_create htype).mpr hnil, hflat, rfl⟩
  have hadd : r.addEvent e = .ok (r.append e) := by
    have hroot : e.prevEvents = [] := htips
    refine addEvent_ok.mpr ⟨⟨rfl, hnone _, fun _ => hnil, ?_, hflat⟩, fun p hp => hp, rfl⟩
    rw [deepestParent_root hroot]
    exact congrArg (· + 1) (hr.depth_nil hnil)
  exact ⟨e, takes_of_createAndAdd hr.tips (bind_ok.mpr ⟨u, hbuild, bind_ok.mpr ⟨_, hadd, rfl⟩⟩)⟩

/-! ## Runs of templates -/

/-- What a room is after templates of which this one is the first that creates it. -/
structure Founded (r : Room) (founder : Option EventTemplate) : Prop where
  empty : r.events = [] ↔ founder = none
  created : (Table.find? .create r.state).isSome = true ↔
    ∃ t, founder = some t ∧ t.stateKey = some ""

theorem founded_new (roomId : String) (version : RoomVersion) :
    (Room.new roomId version).Founded none where
  empty := ⟨fun _ => rfl, fun _ => rfl⟩
  created := ⟨fun h => (nomatch h), fun ⟨_, h, _⟩ => (nomatch h)⟩

/-- The state of a room names the create event after a template iff it did before, or the template
set it. -/
theorem Takes.created_iff {r : Room} {t : EventTemplate} {e : Event} (he : r.Takes t e) :
    (Table.find? .create (r.append e).state).isSome = true ↔
      (t.type = "m.room.create" ∧ t.stateKey = some "") ∨
        (Table.find? .create r.state).isSome = true := by
  have hplace : e.place? = some .create ↔ t.type = "m.room.create" ∧ t.stateKey = some "" := by
    rw [Event.place?_eq_some, he.type_eq, he.stateKey_eq]
    exact Iff.rfl
  rw [find?_state_append]
  by_cases h : e.place? = some .create
  · rw [if_pos h]
    exact ⟨fun _ => .inl (hplace.mp h), fun _ => rfl⟩
  · rw [if_neg h]
    exact ⟨.inr, fun h' => h'.resolve_left fun ht => h (hplace.mpr ht)⟩

/-- An empty room is created by the next template that creates it and passes the check. -/
theorem Founded.after_none {r : Room} (h : r.Founded none) (hr : r.Settled) (s : Identity)
    (now : Int) (t : EventTemplate) : (r.after (.create s now t)).Founded
      (if t.founds r.version then some t else none) := by
  have hplain : ¬ (Table.find? .create r.state).isSome = true := by
    intro hsome
    obtain ⟨_, hnone, -⟩ := h.created.mp hsome
    cases hnone
  by_cases ht : t.founds r.version = true
  · obtain ⟨e, he, hafter⟩ := exists_takes_of_empty hr (h.empty.mpr rfl) s now ht
    rw [hafter, if_pos ht]
    refine ⟨⟨fun hnil => absurd hnil he.events_ne_nil, fun h => nomatch h⟩, ?_⟩
    rw [he.created_iff]
    constructor
    · rintro (⟨-, hkey⟩ | hsome)
      · exact ⟨t, rfl, hkey⟩
      · exact absurd hsome hplain
    · rintro ⟨_, hfounder, hkey⟩
      cases hfounder
      exact .inl ⟨(EventTemplate.founds_iff.mp ht).1, hkey⟩
  · rw [if_neg ht]
    rcases after_create_cases hr.tips s now t with hafter | ⟨e, he, -⟩
    · rw [hafter]
      exact h
    · -- what an empty room takes is a creation
      refine absurd (EventTemplate.founds_iff.mpr ⟨?_, he.check⟩) ht
      by_contra htype
      exact hplain (hr.stateEvent?_isSome.mp ((checkStart_ok htype).mp he.start))

/-- A room that was created stays as it was created. -/
theorem Founded.after_some {r : Room} {f : EventTemplate} (h : r.Founded (some f)) (hr : r.Settled)
    (s : Identity) (now : Int) (t : EventTemplate) :
    (r.after (.create s now t)).Founded (some f) := by
  have hrecorded : r.events ≠ [] := fun hnil => nomatch h.empty.mp hnil
  rcases after_create_cases hr.tips s now t with hafter | ⟨e, he, hafter⟩
  · rw [hafter]
    exact h
  · have htype : t.type ≠ "m.room.create" :=
      fun htype => hrecorded ((checkStart_create htype).mp he.start)
    rw [hafter]
    refine ⟨⟨fun hnil => absurd hnil he.events_ne_nil, fun h => nomatch h⟩, ?_⟩
    rw [he.created_iff, ← h.created]
    constructor
    · rintro (⟨hcreate, -⟩ | hsome)
      · exact absurd hcreate htype
      · exact hsome
    · exact .inr

theorem Founded.after {r : Room} {founder : Option EventTemplate} (h : r.Founded founder)
    (hr : r.Settled) (s : Identity) (now : Int) (t : EventTemplate) :
    (r.after (.create s now t)).Founded
      (founder.or (if t.founds r.version then some t else none)) := by
  cases founder with
  | none =>
    rw [Option.none_or]
    exact h.after_none hr s now t
  | some f =>
    rw [Option.some_or]
    exact h.after_some hr s now t

/-- The room after an event is built of each template, signed and appended, or refused. -/
def afterTemplates (r : Room) (made : List (Identity × Int × EventTemplate)) : Room :=
  r.afterAll (made.map fun c => .create c.1 c.2.1 c.2.2)

theorem Founded.afterTemplates {r : Room} {founder : Option EventTemplate} (h : r.Founded founder)
    (hr : r.Settled) (made : List (Identity × Int × EventTemplate)) :
    (r.afterTemplates made).Founded
      (founder.or ((made.map fun c => c.2.2).find? fun t => t.founds r.version)) := by
  induction made generalizing r founder with
  | nil =>
    rw [List.map_nil, List.find?_nil, Option.or_none]
    exact h
  | cons c made ih =>
    obtain ⟨s, now, t⟩ := c
    obtain ⟨l, hl⟩ := grows_after hr.tips (.create s now t)
    have hrest := ih (h.after hr s now t) (hl.settled hr)
    rw [version_after, Option.or_assoc] at hrest
    show ((r.after (.create s now t)).afterTemplates made).Founded _
    rw [List.map_cons, List.find?_cons]
    cases ht : t.founds r.version with
    | true => simpa only [ht, if_true, Option.some_or] using hrest
    | false => simpa only [ht, Bool.false_eq_true, if_false, Option.none_or] using hrest

/-- A room that is made of templates alone is empty iff no template creates it and passes the check,
and its state names the create event iff the first such template has the empty state key. As long as
the room is less deep than rooms can be, a template is built iff it passes the check and, if it
creates the room, there is no such template before it, and else the state names the create event. So
the room is built on for good, unless the state key of its first creation is another one or missing:
then it takes no template any more. -/
theorem build_after_templates_iff (roomId : String) (version : RoomVersion)
    (made : List (Identity × Int × EventTemplate)) :
    let r := (Room.new roomId version).afterTemplates made
    let founder := (made.map fun c => c.2.2).find? fun t => t.founds version
    (r.isEmpty = true ↔ founder = none) ∧
      ((r.stateEvent? .create).isSome = true ↔ ∃ f, founder = some f ∧ f.stateKey = some "") ∧
      ∀ (origin : String) (now : Int) (t : EventTemplate), (∃ u, r.build origin now t = .ok u) ↔
        t.check version = .ok () ∧ r.depth < maxDepth ∧
          if t.type = "m.room.create" then founder = none
          else ∃ f, founder = some f ∧ f.stateKey = some "" := by
  intro r founder
  have hfounded : r.Founded founder :=
    (founded_new roomId version).afterTemplates (settled_new roomId version) made
  have hr : r.Settled := settled_afterAll roomId version _
  have hversion : r.version = version := version_afterAll (Room.new roomId version) _
  have hcreated := hr.stateEvent?_isSome.trans hfounded.created
  refine ⟨List.isEmpty_iff.trans hfounded.empty, hcreated, fun origin now t => ?_⟩
  rw [hr.exists_build_iff, hversion, and_comm (b := r.depth < maxDepth)]
  refine and_congr_right fun _ => and_congr_right fun _ => ?_
  split
  · rename_i htype
    exact (checkStart_create htype).trans hfounded.empty
  · rename_i htype
    exact (checkStart_ok htype).trans hcreated

/-! ### A creation without a state key -/

/-- The start of a room as an event that is no state. -/
def unkeyedStart : EventTemplate := .message "m.room.create" "@u:a" (.obj [])

/-- It passes the check and is appended. The state does not name it, so the room is not empty, has
no create event and builds nothing. -/
theorem unkeyed_start_bricks : unkeyedStart.raw = false ∧
    let r := (Room.new "!r:a" .default).afterTemplates [(maker, 1, unkeyedStart)]
    r.isEmpty = false ∧ r.stateEvent? .create = none ∧
      ∀ origin now t u, r.build origin now t ≠ .ok u := by
  refine ⟨rfl, ?_⟩
  intro r
  have hfounded : r.Founded (some unkeyedStart) :=
    (founded_new "!r:a" .default).afterTemplates (settled_new "!r:a" .default)
      [(maker, 1, unkeyedStart)]
  have hr : r.Settled := settled_afterAll "!r:a" .default [.create maker 1 unkeyedStart]
  have hrecorded : r.events ≠ [] := fun hnil => nomatch hfounded.empty.mp hnil
  have hplain : ¬ (r.stateEvent? .create).isSome = true := by
    rw [hr.stateEvent?_isSome, hfounded.created]
    rintro ⟨_, hfounder, hkey⟩
    cases hfounder
    cases hkey
  refine ⟨List.isEmpty_eq_false_iff.mpr hrecorded, Option.not_isSome_iff_eq_none.mp hplain, ?_⟩
  intro origin now t u hu
  obtain ⟨-, hstart, -⟩ := hr.exists_build_iff.mp ⟨u, hu⟩
  by_cases htype : t.type = "m.room.create"
  · exact hrecorded ((checkStart_create htype).mp hstart)
  · exact hplain ((checkStart_ok htype).mp hstart)

end Room

end Homeserver
