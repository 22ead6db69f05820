/-
The depth of an event, as a room gives it and as it asks for it. What is built counts from zero up
to its deepest parent, what is appended is checked against its deepest parent as that is. The two
agree unless all parents lie below zero. No appended event does, but a join through another server
brings in events of any depth; so a room and the events that it builds agree for good iff none of
the events that it was first known with lies below zero.
-/
import Homeserver.Proofs.Room.Seeds

namespace Homeserver

/-! ## Faults of templates -/

namespace EventTemplate

/-- A template that is not built is an invalid event. -/
theorem onlyInvalid_check (t : EventTemplate) (version : RoomVersion) :
    OnlyInvalid (t.check version) := by
  have hstrict : OnlyInvalid (t.checkStrict version) := by
    unfold checkStrict
    split
    · cases t.content.checkStrict with
      | error e => exact .error _
      | ok _ => exact .ok _
    · exact .ok _
  have hmember : OnlyInvalid t.checkMember := by
    unfold checkMember
    split
    · split
      · exact .error _
      · split
        · exact .ok _
        · exact .error _
    · exact .ok _
  have hjoinRule : OnlyInvalid (t.checkJoinRule version) := by
    unfold checkJoinRule
    split
    · dsimp only
      split
      · exact .ok _
      · exact .error _
    · exact .ok _
  unfold check
  split
  · exact .ok _
  · split
    · exact .error _
    · exact hstrict.bind fun _ => hmember.bind fun _ => hjoinRule

end EventTemplate

namespace Room

/-! ## The depth that is given -/

theorem nextDepth_cons {r : Room} {p : String} {parents : List String} {depth : Int} :
    r.nextDepth (p :: parents) = .ok depth ↔ ∃ e rest, r.event? p = some e ∧ e.depth < maxDepth ∧
      r.nextDepth parents = .ok rest ∧ depth = max (e.depth + 1) rest := by
  unfold nextDepth
  rw [List.mapM_cons]
  cases r.event? p with
  | none =>
    constructor
    · intro h
      cases h
    · rintro ⟨e, rest, he, -⟩
      cases he
  | some e =>
    have hmax : ∀ depths : List Int,
        (e.depth :: depths).foldl max 0 = max e.depth (depths.foldl max 0) := by
      intro depths
      rw [List.foldl_cons, Int.max_comm 0, List.foldl_assoc]
    constructor
    · intro h
      obtain ⟨depths, hdepths, h⟩ := bind_ok.mp h
      obtain ⟨first, hfirst, hdepths⟩ := bind_ok.mp hdepths
      obtain ⟨others, hothers, hdepths⟩ := bind_ok.mp hdepths
      cases hfirst
      cases hdepths
      obtain ⟨rfl, hle⟩ := deeper_ok.mp h
      rw [hmax] at hle
      refine ⟨e, others.foldl max 0 + 1, rfl, by omega, bind_ok.mpr ⟨others, hothers, ?_⟩, ?_⟩
      · exact deeper_ok.mpr ⟨rfl, by omega⟩
      · rw [hmax]
        omega
    · rintro ⟨f, rest, hf, hlt, hrest, rfl⟩
      obtain ⟨others, hothers, hrest⟩ := bind_ok.mp hrest
      obtain ⟨rfl, hle⟩ := deeper_ok.mp hrest
      cases hf
      refine bind_ok.mpr ⟨e.depth :: others, ?_, deeper_ok.mpr ?_⟩
      · exact bind_ok.mpr ⟨e.depth, rfl, bind_ok.mpr ⟨others, hothers, rfl⟩⟩
      · rw [hmax]
        constructor <;> omega

/-- Recorded parents give a depth: at least one, above all of them, and no greater than that asks
for. -/
theorem nextDepth_spec {r : Room} {parents : List String} {depth : Int}
    (h : r.nextDepth parents = .ok depth) : (∀ p ∈ parents, r.contains p = true) ∧
      (1 ≤ depth ∧ depth ≤ maxDepth) ∧
      (∀ p ∈ parents, ∀ e, r.event? p = some e → e.depth < depth) ∧
      (depth = 1 ∨ ∃ p ∈ parents, ∃ e, r.event? p = some e ∧ depth = e.depth + 1) := by
  induction parents generalizing depth with
  | nil =>
    cases h
    exact ⟨fun _ h => (nomatch h), by decide, fun _ h => (nomatch h), .inl rfl⟩
  | cons p parents ih =>
    obtain ⟨e, rest, he, hlt, hrest, rfl⟩ := nextDepth_cons.mp h
    obtain ⟨hrecorded, hbounds, habove, hleast⟩ := ih hrest
    refine ⟨List.forall_mem_cons.mpr ⟨by rw [contains, he]; rfl, hrecorded⟩, by omega, ?_, ?_⟩
    · rw [List.forall_mem_cons]
      constructor
      · intro f hf
        cases he.symm.trans hf
        omega
      · intro q hq f hf
        have := habove q hq f hf
        omega
    · rcases Int.le_total rest (e.depth + 1) with hle | hle
      · exact .inr ⟨p, List.mem_cons_self, e, he, by omega⟩
      · rcases hleast with rfl | ⟨q, hq, f, hf, rfl⟩
        · left
          omega
        · exact .inr ⟨q, List.mem_cons_of_mem p hq, f, hf, by omega⟩

/-- One of these parents is as deep as an event can be. -/
def ReachesMax (r : Room) (parents : List String) : Prop :=
  ∃ p ∈ parents, ∃ e, r.event? p = some e ∧ maxDepth ≤ e.depth

theorem exists_nextDepth {r : Room} {parents : List String}
    (h : ∀ p ∈ parents, r.contains p = true) (hmax : ¬ r.ReachesMax parents) :
    ∃ depth, r.nextDepth parents = .ok depth := by
  induction parents with
  | nil => exact ⟨1, rfl⟩
  | cons p parents ih =>
    obtain ⟨hp, hparents⟩ := List.forall_mem_cons.mp h
    obtain ⟨e, he⟩ := event?_isSome hp
    have hlt : e.depth < maxDepth :=
      Int.not_le.mp fun hle => hmax ⟨p, List.mem_cons_self, e, he, hle⟩
    obtain ⟨rest, hrest⟩ := ih hparents fun ⟨q, hq, hdeep⟩ =>
      hmax ⟨q, List.mem_cons_of_mem p hq, hdeep⟩
    exact ⟨_, nextDepth_cons.mpr ⟨e, rest, he, hlt, hrest, rfl⟩⟩

theorem nextDepth_error {r : Room} {parents : List String} {err : EventError}
    (h : r.nextDepth parents = .error err) :
    (∃ p ∈ parents, r.contains p = false ∧ err = .graph (.unknownParent p r.roomId)) ∨
      (∀ p ∈ parents, r.contains p = true) ∧ err = .overflow := by
  unfold nextDepth at h
  rcases bind_error.mp h with h | ⟨depths, hdepths, h⟩
  · obtain ⟨p, hp, h⟩ := mapM_error h
    cases hfound : r.event? p with
    | none =>
      rw [hfound] at h
      cases h
      exact .inl ⟨p, hp, by rw [contains, hfound]; rfl, rfl⟩
    | some e =>
      rw [hfound] at h
      cases h
  · unfold deeper at h
    split at h
    · cases h
    · cases h
      refine .inr ⟨fun p hp => ?_, rfl⟩
      obtain ⟨depth, hdepth⟩ := mapM_ok_mem hdepths p hp
      cases hfound : r.event? p with
      | none =>
        rw [hfound] at hdepth
        cases hdepth
      | some e =>
        rw [contains, hfound]
        rfl

/-- Recorded parents give no depth iff one of them is as deep as an event can be. -/
theorem nextDepth_overflow_iff {r : Room} {parents : List String} :
    r.nextDepth parents = .error .overflow ↔
      (∀ p ∈ parents, r.contains p = true) ∧ r.ReachesMax parents := by
  constructor
  · intro h
    rcases nextDepth_error h with ⟨p, -, -, herr⟩ | ⟨hrecorded, -⟩
    · cases herr
    · refine ⟨hrecorded, by_contra fun hmax => ?_⟩
      obtain ⟨depth, hdepth⟩ := exists_nextDepth hrecorded hmax
      cases hdepth.symm.trans h
  · rintro ⟨hrecorded, p, hp, e, he, hmax⟩
    cases hnext : r.nextDepth parents with
    | ok depth =>
      obtain ⟨-, hbounds, habove, -⟩ := nextDepth_spec hnext
      have := habove p hp e he
      omega
    | error err =>
      rcases nextDepth_error hnext with ⟨q, hq, hnone, -⟩ | ⟨-, rfl⟩
      · rw [hrecorded q hq] at hnone
        cases hnone
      · rfl

/-- One of these parents does not lie below zero, or there are none. -/
def ReachesZero (r : Room) (parents : List String) : Prop :=
  parents = [] ∨ ∃ p ∈ parents, ∃ e, r.event? p = some e ∧ 0 ≤ e.depth

/-- The depth that an event is given is the one that is asked for iff one of its parents does not
lie below zero. -/
theorem depth_eq_iff {r : Room} {e : Event} (h : r.nextDepth e.prevEvents = .ok e.depth) :
    e.depth = r.deepestParent e + 1 ↔ r.ReachesZero e.prevEvents := by
  obtain ⟨hrecorded, ⟨hone, -⟩, habove, hleast⟩ := nextDepth_spec h
  by_cases hnil : e.prevEvents = []
  · rw [hnil] at h
    have hdepth : 1 = e.depth := Except.ok.inj h
    rw [deepestParent_root hnil]
    exact ⟨fun _ => .inl hnil, fun _ => by omega⟩
  · obtain ⟨⟨p, hp, f, hf, hfd⟩, hle⟩ := deepestParent_spec hnil hrecorded
    constructor
    · intro hdepth
      exact .inr ⟨p, hp, f, hf, by omega⟩
    · rintro (hnil' | ⟨q, hq, g, hg, hzero⟩)
      · exact absurd hnil' hnil
      · have h₁ := habove p hp f hf
        have h₂ := hle q hq g hg
        rcases hleast with hdepth | ⟨q', hq', g', hg', hdepth⟩
        · omega
        · have h₃ := hle q' hq' g' hg'
          omega

/-! ## What is built -/

/-- What is built belongs to the room, has the parents that were chosen, and the depth that they
give. -/
theorem buildOn_fields {r : Room} {origin : String} {now : Int} {t : EventTemplate}
    {parents : List String} {u : UnsignedEvent} (h : r.buildOn origin now t parents = .ok u) :
    u.fields.roomId = r.roomId ∧ u.fields.prevEvents = parents ∧
      r.nextDepth parents = .ok u.fields.depth := by
  obtain ⟨-, -, depth, hdepth, rfl⟩ := buildOn_ok.mp h
  exact ⟨rfl, rfl, hdepth⟩

/-- A template that passes the checks is built on all recorded parents that are less deep than an
event can be. -/
theorem buildOn_of_recorded {r : Room} {t : EventTemplate} {parents : List String}
    (hcheck : t.check r.version = .ok ()) (hstart : r.checkStart t = .ok ())
    (h : ∀ p ∈ parents, r.contains p = true) (hmax : ¬ r.ReachesMax parents) (origin : String)
    (now : Int) : ∃ u, r.buildOn origin now t parents = .ok u := by
  obtain ⟨depth, hdepth⟩ := exists_nextDepth h hmax
  exact ⟨_, buildOn_ok.mpr ⟨hcheck, hstart, depth, hdepth, rfl⟩⟩

/-- The depth check passes what a room built and a server signed iff one of the parents does not lie
below zero. -/
theorem checkDepth_signEvent {r : Room} {origin : String} {now : Int} {t : EventTemplate}
    {parents : List String} {u : UnsignedEvent} (h : r.buildOn origin now t parents = .ok u)
    (s : Identity) : r.checkDepth (s.signEvent u) = .ok () ↔ r.ReachesZero parents := by
  obtain ⟨-, rfl, hdepth⟩ := buildOn_fields h
  obtain ⟨-, ⟨-, hle⟩, -⟩ := nextDepth_spec hdepth
  rw [checkDepth_ok, depth_eq_iff (e := s.signEvent u) hdepth]
  exact and_iff_left hle

/-! ## What is refused -/

/-- Building fails for a fault of the template, because a room is not or no longer to be created, or
because the parents give no depth. -/
theorem buildOn_error {r : Room} {origin : String} {now : Int} {t : EventTemplate}
    {parents : List String} {err : EventError} (h : r.buildOn origin now t parents = .error err) :
    (∃ cause, err = .invalid cause) ∨ err = .graph (.secondCreate r.roomId) ∨
      err = .missingState (.create r.roomId) ∨ t.check r.version = .ok () ∧
        r.checkStart t = .ok () ∧ r.nextDepth parents = .error err := by
  unfold buildOn at h
  rcases bind_error.mp h with h | ⟨⟨⟩, hcheck, h⟩
  · exact .inl (EventTemplate.onlyInvalid_check t _ err h)
  · rcases bind_error.mp h with h | ⟨⟨⟩, hstart, h⟩
    · unfold checkStart at h
      split at h
      · split at h
        · cases h
        · cases h
          exact .inr (.inl rfl)
      · split at h
        · cases h
        · cases h
          exact .inr (.inr (.inl rfl))
    · rcases bind_error.mp h with h | ⟨depth, -, h⟩
      · exact .inr (.inr (.inr ⟨hcheck, hstart, h⟩))
      · cases h

/-- Building never fails for a wrong depth. -/
theorem build_ne_wrongDepth (r : Room) (origin : String) (now : Int) (t : EventTemplate)
    (id : String) (found expected : Int) :
    r.build origin now t ≠ .error (.graph (.wrongDepth id found expected)) := by
  intro h
  rcases buildOn_error h with ⟨cause, herr⟩ | herr | herr | ⟨-, -, h⟩
  · cases herr
  · cases herr
  · cases herr
  · rcases nextDepth_error h with ⟨p, -, -, herr⟩ | ⟨-, herr⟩ <;> cases herr

/-- Building breaks off iff all is as it should be but that a parent is as deep as an event can be. -/
theorem buildOn_overflow_iff {r : Room} {origin : String} {now : Int} {t : EventTemplate}
    {parents : List String} : r.buildOn origin now t parents = .error .overflow ↔
      t.check r.version = .ok () ∧ r.checkStart t = .ok () ∧
        (∀ p ∈ parents, r.contains p = true) ∧ r.ReachesMax parents := by
  constructor
  · intro h
    rcases buildOn_error h with ⟨cause, herr⟩ | herr | herr | ⟨hcheck, hstart, h⟩
    · cases herr
    · cases herr
    · cases herr
    · exact ⟨hcheck, hstart, nextDepth_overflow_iff.mp h⟩
  · rintro ⟨hcheck, hstart, hdeep⟩
    refine bind_error.mpr (.inr ⟨(), hcheck, bind_error.mpr (.inr ⟨(), hstart, ?_⟩)⟩)
    exact bind_error.mpr (.inl (nextDepth_overflow_iff.mpr hdeep))

/-- An event is refused for its depth iff it passes the checks before and its parents ask for
another one. -/
theorem addEvent_wrongDepth_iff {r : Room} {e : Event} :
    (∃ id found expected, r.addEvent e = .error (.graph (.wrongDepth id found expected))) ↔
      r.checkNew e = .ok () ∧ r.checkExtremities e = .ok () ∧ r.deepestParent e < maxDepth ∧
        e.depth ≠ r.deepestParent e + 1 := by
  constructor
  · rintro ⟨id, found, expected, h⟩
    obtain ⟨cause, hcause, hne⟩ | ⟨hnew, htips, hdepth⟩ := addEvent_error h
    · exact absurd (EventError.graph.inj hcause).symm (hne id found expected)
    · obtain ⟨-, h⟩ | ⟨hlt, hne, -⟩ := checkDepth_error.mp hdepth
      · cases h
      · exact ⟨hnew, htips, hlt, hne⟩
  · rintro ⟨hnew, htips, hlt, hdepth⟩
    exact ⟨e.id, e.depth, r.deepestParent e + 1,
      addEvent_of_checkDepth hnew htips (checkDepth_error.mpr (.inr ⟨hlt, hdepth, rfl⟩))⟩

/-- When an event that a room builds, a server signs and the room is to append is refused for its
depth: if it is new and all forward extremities lie below zero. -/
theorem createAndAdd_wrongDepth_iff {r : Room} {s : Identity} {now : Int} {t : EventTemplate} :
    (∃ id found expected,
        r.createAndAdd s now t = .error (.graph (.wrongDepth id found expected))) ↔
      ∃ u, r.build s.serverName now t = .ok u ∧ r.contains (s.signEvent u).id = false ∧
        ¬ r.ReachesZero r.forwardExtremities := by
  constructor
  · rintro ⟨id, found, expected, h⟩
    unfold createAndAdd at h
    rcases bind_error.mp h with h | ⟨u, hu, h⟩
    · exact absurd h (build_ne_wrongDepth r _ now t id found expected)
    · rcases bind_error.mp h with h | ⟨next, -, h⟩
      · obtain ⟨hnew, -, -, hdepth⟩ := addEvent_wrongDepth_iff.mp ⟨id, found, expected, h⟩
        refine ⟨u, hu, (checkNew_ok.mp hnew).2.1, fun hzero => hdepth ?_⟩
        exact (checkDepth_ok.mp ((checkDepth_signEvent hu s).mpr hzero)).1
      · cases h
  · rintro ⟨u, hu, hnew, hbelow⟩
    obtain ⟨hroom, hprev, hnext⟩ := buildOn_fields hu
    obtain ⟨hrecorded, ⟨-, hle⟩, habove, -⟩ := nextDepth_spec hnext
    have hne : r.forwardExtremities ≠ [] := fun hnil => hbelow (.inl hnil)
    have hprev : (s.signEvent u).prevEvents = r.forwardExtremities := hprev
    have hfresh : r.checkNew (s.signEvent u) = .ok () :=
      checkNew_ok.mpr ⟨hroom, hnew, fun hnil => absurd (hprev.symm.trans hnil) hne⟩
    have htips : r.checkExtremities (s.signEvent u) = .ok () :=
      checkExtremities_ok.mpr fun p hp => hprev ▸ hp
    have hlt : r.deepestParent (s.signEvent u) < maxDepth := by
      obtain ⟨⟨p, hp, f, hf, hdepth⟩, -⟩ :=
        deepestParent_spec (hprev ▸ hne) (hprev ▸ hrecorded)
      have := habove p (hprev ▸ hp) f hf
      omega
    have hdepth : (s.signEvent u).depth ≠ r.deepestParent (s.signEvent u) + 1 :=
      fun hdepth => hbelow ((checkDepth_signEvent hu s).mp (checkDepth_ok.mpr ⟨hdepth, hle⟩))
    obtain ⟨id, found, expected, h⟩ := addEvent_wrongDepth_iff.mpr ⟨hfresh, htips, hlt, hdepth⟩
    refine ⟨id, found, expected, bind_error.mpr (.inr ⟨u, hu, ?_⟩)⟩
    exact bind_error.mpr (.inl h)

/-! ## Rooms that agree with what they build -/

/-- No event of a room lies below zero if none did when it was first known. -/
theorem Grows.depth_nonneg {r s : Room} {l : List Event} (h : r.Grows l s)
    (hr : ∀ e ∈ r.events, 0 ≤ e.depth) : ∀ e ∈ s.events, 0 ≤ e.depth := by
  induction h with
  | refl => exact hr
  | @append l s e _ he ih =>
    intro f hf
    rw [events_append he.new] at hf
    rcases List.mem_append.mp hf with hf | hf
    · exact ih f hf
    · rw [List.mem_singleton.mp hf, he.depth]
      by_cases hnil : e.prevEvents = []
      · rw [deepestParent_root hnil]
        decide
      · obtain ⟨⟨p, -, g, hg, hgd⟩, -⟩ := deepestParent_spec hnil he.parents
        have := ih g (mem_of_event? hg).1
        omega

theorem reachesZero_of_nonneg {r : Room} (hr : ∀ e ∈ r.events, 0 ≤ e.depth) {parents : List String}
    (hparents : ∀ p ∈ parents, r.contains p = true) : r.ReachesZero parents := by
  cases parents with
  | nil => exact .inl rfl
  | cons p parents =>
    obtain ⟨e, he⟩ := event?_isSome (hparents p List.mem_cons_self)
    exact .inr ⟨p, List.mem_cons_self, e, he, hr e (mem_of_event? he).1⟩

theorem check_message (version : RoomVersion) (user : String) :
    (EventTemplate.message "m.room.message" user (.obj [])).check version = .ok () := by
  cases version <;> rfl

/-- A room that was joined builds messages on all that it has recorded, but not on an event as deep
as an event can be. -/
theorem buildOn_message {version : RoomVersion} {roomId : String} {state chain : List Event}
    {join : Event} {r : Room} (h : ofRemoteJoin version roomId state chain join = .ok r)
    {parents : List String} (hparents : ∀ p ∈ parents, r.contains p = true)
    (hmax : ¬ r.ReachesMax parents) (origin : String) (now : Int) (user : String) :
    ∃ u, r.buildOn origin now (.message "m.room.message" user (.obj [])) parents = .ok u := by
  have htype : (EventTemplate.message "m.room.message" user (.obj [])).type ≠ "m.room.create" :=
    show "m.room.message" ≠ "m.room.create" by decide
  have hstart : r.checkStart (.message "m.room.message" user (.obj [])) = .ok () :=
    (checkStart_ok htype).mpr (isSome_create_ofRemoteJoin h)
  exact buildOn_of_recorded (check_message r.version user) hstart hparents hmax origin now

/-- On each event with which a room is first known it builds another one, if there is a greater
depth. -/
theorem Origin.builds_on {r : Room} (h : r.Origin) {e : Event} (he : e ∈ r.events)
    (hlt : e.depth < maxDepth) (origin : String) (now : Int) :
    ∃ t u, r.buildOn origin now t [e.id] = .ok u := by
  have hfound : r.event? e.id = some e := (event?_eq_some h.nodup_ids).mpr ⟨he, rfl⟩
  cases h with
  | new roomId version => cases he
  | joined h =>
    refine ⟨_, buildOn_message h (List.forall_mem_singleton.mpr ?_) ?_ origin now ""⟩
    · rw [contains, hfound]
      rfl
    · rintro ⟨p, hp, f, hf, hle⟩
      rw [List.mem_singleton.mp hp, hfound] at hf
      cases hf
      omega

/-- When a room asks for the depth that it gives. Take a room that starts empty or was joined through
another server, after any run of calls. It builds no event on a parent that is as deep as an event
can be: that breaks off. What it builds on other recorded parents and a server signs passes the
depth check iff one of the parents does not lie below zero, or there are none. So what it builds on
its forward extremities and appends at once is refused for its depth iff it is new and they all lie
below zero. The room agrees with all that it ever builds, after every run, iff no event with which
it was first known lies below zero; a room that starts empty has none. -/
theorem depth_agrees_iff {r : Room} (h : r.Origin) :
    (∀ calls, let next := r.afterAll calls
      (∀ (s : Identity) time t parents,
        (next.buildOn s.serverName time t parents = .error .overflow ↔
          t.check next.version = .ok () ∧ next.checkStart t = .ok () ∧
            (∀ p ∈ parents, next.contains p = true) ∧ next.ReachesMax parents) ∧
        ∀ u, next.buildOn s.serverName time t parents = .ok u →
          (next.checkDepth (s.signEvent u) = .ok () ↔ next.ReachesZero parents)) ∧
      ∀ (s : Identity) time t, (∃ id found expected,
          next.createAndAdd s time t = .error (.graph (.wrongDepth id found expected))) ↔
        ∃ u, next.build s.serverName time t = .ok u ∧ next.contains (s.signEvent u).id = false ∧
          ¬ next.ReachesZero next.forwardExtremities) ∧
    ((∀ calls (s : Identity) time t parents u,
        (r.afterAll calls).buildOn s.serverName time t parents = .ok u →
          (r.afterAll calls).checkDepth (s.signEvent u) = .ok ()) ↔
      ∀ e ∈ r.events, 0 ≤ e.depth) := by
  constructor
  · intro calls next
    constructor
    · intro s time t parents
      exact ⟨buildOn_overflow_iff, fun u hu => checkDepth_signEvent hu s⟩
    · intro s time t
      exact createAndAdd_wrongDepth_iff
  · constructor
    · intro hagrees e he
      -- a message on this event alone, if there is a depth for it
      by_contra hbelow
      have hlt : e.depth < maxDepth := Int.lt_trans (Int.not_le.mp hbelow) (by decide)
      obtain ⟨t, u, hu⟩ := h.builds_on he hlt maker.serverName 0
      rcases (checkDepth_signEvent hu maker).mp (hagrees [] maker 0 t [e.id] u hu) with
        hnil | ⟨p, hp, f, hf, hzero⟩
      · cases hnil
      · rw [List.mem_singleton.mp hp] at hf
        cases ((event?_eq_some h.nodup_ids).mpr ⟨he, rfl⟩).symm.trans hf
        exact hbelow hzero
    · intro hzero calls s time t parents u hu
      obtain ⟨l, hl⟩ := grows_afterAll h.anchored calls
      obtain ⟨-, -, hdepth⟩ := buildOn_fields hu
      exact (checkDepth_signEvent hu s).mpr
        (reachesZero_of_nonneg (hl.depth_nonneg hzero) (nextDepth_spec hdepth).1)

/-- A room that was joined takes what it builds on the creation and the join. -/
theorem depth_agrees_of_join : lackingRoom.Origin ∧ ∃ u,
    lackingRoom.buildOn maker.serverName 1 (.message "m.room.message" "@u:a" (.obj []))
        ["$0", "$2"] = .ok u ∧
      lackingRoom.checkDepth (maker.signEvent u) = .ok () := by
  have horigin : lackingRoom.Origin := .joined ofRemoteJoin_lackingRoom
  have hrecorded : ∀ p ∈ ["$0", "$2"], lackingRoom.contains p = true := by decide
  have hmax : ¬ lackingRoom.ReachesMax ["$0", "$2"] := by
    rintro ⟨p, hp, e, he, hle⟩
    have hflat : ∀ e ∈ lackingRoom.events, e.depth < maxDepth := by decide
    exact Int.not_le.mpr (hflat e (mem_of_event? he).1) hle
  obtain ⟨u, hu⟩ :=
    buildOn_message ofRemoteJoin_lackingRoom hrecorded hmax maker.serverName 1 "@u:a"
  have hzero : ∀ e ∈ lackingRoom.events, 0 ≤ e.depth := by decide
  exact ⟨horigin, u, hu, (depth_agrees_iff horigin).2.mpr hzero [] maker 1 _ _ u hu⟩

/-! ### A join below zero -/

def sinking : EventFields := { joining with depth := -5 }

/-- A room that was joined below zero refuses all that it builds for its depth. -/
theorem join_below_zero_stalls : ∃ r u,
    ofRemoteJoin .default "!r:a" [made creating] [] (made sinking) = .ok r ∧
      Event.ofPdu .default (made creating).json = .ok (made creating) ∧
      Event.ofPdu .default (made sinking).json = .ok (made sinking) ∧
      r.build maker.serverName 1 (.message "m.room.message" "@u:a" (.obj [])) = .ok u ∧
      r.checkDepth (maker.signEvent u) ≠ .ok () ∧
      ∀ s time t made, r.createAndAdd s time t ≠ .ok made := by
  obtain ⟨r, hjoined⟩ :=
    ofRemoteJoin_of_creation (c := made creating) rfl .default (made sinking)
  obtain ⟨htips, hjoin⟩ := ofRemoteJoin_ok hjoined
  have hmax : ¬ r.ReachesMax r.forwardExtremities := by
    rw [htips]
    rintro ⟨p, hp, e, he, hle⟩
    rw [List.mem_singleton.mp hp, hjoin] at he
    cases he
    exact absurd hle (show ¬ maxDepth ≤ -5 by decide)
  obtain ⟨u, hu⟩ :=
    buildOn_message hjoined (Origin.joined hjoined).anchored hmax maker.serverName 1 "@u:a"
  have hbelow : ¬ r.ReachesZero r.forwardExtremities := by
    rw [htips]
    rintro (hnil | ⟨p, hp, e, he, hzero⟩)
    · cases hnil
    · rw [List.mem_singleton.mp hp, hjoin] at he
      cases he
      exact absurd hzero (show ¬ (0 : Int) ≤ -5 by decide)
  refine ⟨r, u, hjoined, ofPdu_made rfl rfl, ofPdu_made rfl rfl, hu, ?_, ?_⟩
  · intro hdepth
    exact hbelow ((checkDepth_signEvent hu maker).mp hdepth)
  · rintro s time t ⟨e, next⟩ h
    obtain ⟨⟨v, hv, rfl⟩, hadd⟩ := createAndAdd_ok h
    obtain ⟨hfits, -⟩ := addEvent_ok.mp hadd
    exact hbelow ((checkDepth_signEvent hv s).mp (checkDepth_ok.mpr ⟨hfits.depth, hfits.depth_le⟩))

end Room

end Homeserver
