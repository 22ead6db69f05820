/-
How rooms grow: what recording an event changes, when an event is appended, and runs of calls that
append events or are refused. An appended event is new and follows recorded events, so a room keeps
its bookkeeping (`Consistent`) over every run.
-/
import Homeserver.Proofs.Result
import Homeserver.Proofs.Table
import Homeserver.Room.Append

namespace Homeserver

theorem RoomVersion.ofId_id (version : RoomVersion) : ofId version.id = .ok version := by
  cases version <;> rfl

theorem RoomVersion.id_of_ofId {id : String} {version : RoomVersion} (h : ofId id = .ok version) :
    id = version.id := by
  unfold ofId at h
  split at h
  · rename_i found hfound
    cases h
    unfold ofId? at hfound
    have hid := List.find?_some hfound
    exact (of_decide_eq_true hid).symm
  · cases h

theorem RoomVersion.id_inj {v w : RoomVersion} (h : v.id = w.id) : v = w := by
  have hv := ofId_id v
  rw [h, ofId_id] at hv
  exact (Except.ok.inj hv).symm

/-! ## Recording -/

namespace Room

theorem event?_record (r : Room) (e : Event) (id : String) :
    (r.record e).event? id = if e.id = id then some e else r.event? id := by
  show (r.events.filter _ ++ [e]).find? _ = _
  rw [List.find?_append, List.find?_filter]
  by_cases h : e.id = id
  · subst h
    rw [List.find?_eq_none.mpr (by simp), if_pos rfl]
    simp
  · rw [if_neg h, List.find?_cons_of_neg (by simpa using h), List.find?_nil, Option.or_none]
    show _ = r.events.find? _
    congr 1
    funext f
    by_cases hf : f.id = id
    · simp [hf, Ne.symm h]
    · simp [hf]

theorem contains_iff {r : Room} {id : String} :
    r.contains id = true ↔ id ∈ r.events.map Event.id := by
  unfold contains event?
  rw [List.find?_isSome, List.mem_map]
  simp

theorem mem_of_event? {r : Room} {id : String} {e : Event} (h : r.event? id = some e) :
    e ∈ r.events ∧ e.id = id :=
  ⟨List.mem_of_find?_eq_some h, by simpa using List.find?_some h⟩

theorem event?_isSome {r : Room} {id : String} (h : r.contains id = true) :
    ∃ e, r.event? id = some e := Option.isSome_iff_exists.mp h

@[simp] theorem events_setState (r : Room) (e : Event) : (r.setState e).events = r.events := by
  unfold setState; split <;> rfl

@[simp] theorem timeline_setState (r : Room) (e : Event) : (r.setState e).timeline = r.timeline := by
  unfold setState; split <;> rfl

@[simp] theorem extremities_setState (r : Room) (e : Event) :
    (r.setState e).extremities = r.extremities := by
  unfold setState; split <;> rfl

@[simp] theorem depth_setState (r : Room) (e : Event) : (r.setState e).depth = r.depth := by
  unfold setState; split <;> rfl

@[simp] theorem roomId_setState (r : Room) (e : Event) : (r.setState e).roomId = r.roomId := by
  unfold setState; split <;> rfl

@[simp] theorem version_setState (r : Room) (e : Event) : (r.setState e).version = r.version := by
  unfold setState; split <;> rfl

theorem event?_setState (r : Room) (e : Event) (id : String) :
    (r.setState e).event? id = r.event? id := by
  unfold event?; rw [events_setState]

/-! ## Appending -/

theorem event?_append (r : Room) (e : Event) (id : String) :
    (r.append e).event? id = if e.id = id then some e else r.event? id := by
  unfold append
  rw [event?_record, event?_setState]
  rfl

theorem contains_append (r : Room) (e : Event) (id : String) :
    (r.append e).contains id = true ↔ e.id = id ∨ r.contains id = true := by
  unfold contains
  rw [event?_append]
  by_cases h : e.id = id <;> simp [h]

/-- A new event is recorded behind the others. -/
theorem events_append {r : Room} {e : Event} (h : r.contains e.id = false) :
    (r.append e).events = r.events ++ [e] := by
  show (Room.setState _ e).events.filter _ ++ [e] = _
  rw [events_setState]
  congr 1
  refine List.filter_eq_self.mpr fun f hf => ?_
  have : e.id ∉ r.events.map Event.id := by rw [← contains_iff, h]; exact Bool.false_ne_true
  simp only [ne_eq, decide_not, Bool.not_eq_eq_eq_not, Bool.not_true, decide_eq_false_iff_not]
  exact fun he => this (he ▸ List.mem_map_of_mem hf)

@[simp] theorem timeline_append (r : Room) (e : Event) :
    (r.append e).timeline = r.timeline ++ [e.id] := by
  show (Room.setState _ e).timeline ++ [e.id] = _
  rw [timeline_setState]

@[simp] theorem depth_append (r : Room) (e : Event) :
    (r.append e).depth = max r.depth e.depth := by
  show max (Room.setState _ e).depth e.depth = _
  rw [depth_setState]

@[simp] theorem roomId_append (r : Room) (e : Event) : (r.append e).roomId = r.roomId := by
  show (Room.setState _ e).roomId = _
  rw [roomId_setState]

@[simp] theorem version_append (r : Room) (e : Event) : (r.append e).version = r.version := by
  show (Room.setState _ e).version = _
  rw [version_setState]

theorem extremities_append (r : Room) (e : Event) : (r.append e).extremities =
    KeySet.add e.id (KeySet.removeAll e.prevEvents r.extremities) := by
  show (Room.setState _ e).extremities = _
  rw [extremities_setState]

theorem state_append (r : Room) (e : Event) : (r.append e).state = (r.setState e).state := by
  show (Room.setState _ e).state = _
  unfold setState; split <;> rfl

theorem mem_extremities_append {r : Room} {e : Event} {id : String} :
    id ∈ (r.append e).forwardExtremities ↔
      id = e.id ∨ id ∈ r.forwardExtremities ∧ id ∉ e.prevEvents := by
  unfold forwardExtremities
  rw [extremities_append, KeySet.mem_add, KeySet.mem_removeAll]

/-- An event on all forward extremities of a room becomes the only one. -/
theorem extremities_append_tips {r : Room} {e : Event} (h : e.prevEvents = r.forwardExtremities) :
    (r.append e).forwardExtremities = [e.id] := by
  unfold forwardExtremities
  have hnil : KeySet.removeAll e.prevEvents r.extremities = [] := by
    refine List.eq_nil_iff_forall_not_mem.mpr fun row hrow => ?_
    have := (KeySet.mem_removeAll (k := row.1)).mp (List.mem_map_of_mem hrow)
    rw [h] at this
    exact this.2 this.1
  rw [extremities_append, hnil]
  rfl

/-! ## Checks -/

/-- What both ways of appending ask of an event apart from where its parents are. -/
structure Fits (r : Room) (e : Event) : Prop where
  room : e.roomId = r.roomId
  new : r.contains e.id = false
  root : e.prevEvents = [] → r.events = []
  depth : e.depth = r.deepestParent e + 1
  depth_le : e.depth ≤ maxDepth

theorem checkNew_ok {r : Room} {e : Event} : r.checkNew e = .ok () ↔
    e.roomId = r.roomId ∧ r.contains e.id = false ∧ (e.prevEvents = [] → r.events = []) := by
  unfold checkNew isEmpty
  split
  · rename_i h; simp [h]
  · rename_i h
    rw [Decidable.not_not] at h
    split
    · rename_i hc; simp [hc]
    · rename_i hc
      rw [Bool.not_eq_true] at hc
      split
      · rename_i hr
        simp only [List.isEmpty_iff, Bool.not_eq_true', List.isEmpty_eq_false_iff] at hr
        simp [hr.1, hr.2]
      · rename_i hr
        simp only [List.isEmpty_iff, Bool.not_eq_true', List.isEmpty_eq_false_iff, not_and,
          Decidable.not_not] at hr
        exact ⟨fun _ => ⟨h, hc, hr⟩, fun _ => rfl⟩

theorem checkExtremities_ok {r : Room} {e : Event} :
    r.checkExtremities e = .ok () ↔ ∀ p ∈ e.prevEvents, p ∈ r.forwardExtremities := by
  unfold checkExtremities forwardExtremities
  split
  · rename_i p hp
    have hm := List.mem_of_find?_eq_some hp
    have hn : ¬ p ∈ r.extremities.toList := by
      rw [← KeySet.has_iff]; simpa using List.find?_some hp
    exact ⟨fun h => (nomatch h), fun h => absurd (h p hm) hn⟩
  · rename_i hp
    rw [List.find?_eq_none] at hp
    refine ⟨fun _ p hm => ?_, fun _ => rfl⟩
    rw [← KeySet.has_iff]; simpa using hp p hm

/-- What the checks before that of the depth find wrong is not the depth. -/
theorem checkNew_error {r : Room} {e : Event} {err : EventError} (h : r.checkNew e = .error err) :
    ∃ cause, err = .graph cause ∧ ∀ id found expected, cause ≠ .wrongDepth id found expected := by
  unfold checkNew at h
  split at h
  · cases h
    exact ⟨_, rfl, fun _ _ _ h => nomatch h⟩
  · split at h
    · cases h
      exact ⟨_, rfl, fun _ _ _ h => nomatch h⟩
    · split at h
      · cases h
        exact ⟨_, rfl, fun _ _ _ h => nomatch h⟩
      · cases h

theorem checkExtremities_error {r : Room} {e : Event} {err : EventError}
    (h : r.checkExtremities e = .error err) :
    ∃ cause, err = .graph cause ∧ ∀ id found expected, cause ≠ .wrongDepth id found expected := by
  unfold checkExtremities at h
  split at h
  · cases h
    exact ⟨_, rfl, fun _ _ _ h => nomatch h⟩
  · cases h

/-- An event with a parent that is no forward extremity is refused, before its depth counts. -/
theorem addEvent_stale {r : Room} {e : Event} {p : String} (hp : p ∈ e.prevEvents)
    (hstale : p ∉ r.forwardExtremities) : ∃ cause, r.addEvent e = .error (.graph cause) := by
  unfold addEvent
  cases hnew : r.checkNew e with
  | error err =>
    obtain ⟨cause, rfl, -⟩ := checkNew_error hnew
    exact ⟨cause, rfl⟩
  | ok _ =>
    cases htips : r.checkExtremities e with
    | error err =>
      obtain ⟨cause, rfl, -⟩ := checkExtremities_error htips
      exact ⟨cause, rfl⟩
    | ok _ => exact absurd (checkExtremities_ok.mp htips p hp) hstale

theorem checkRecorded_ok {r : Room} {e : Event} :
    r.checkRecorded e = .ok () ↔ ∀ p ∈ e.prevEvents, r.contains p = true := by
  unfold checkRecorded
  split
  · rename_i p hp
    have hm := List.mem_of_find?_eq_some hp
    have hn : r.contains p = false := by simpa using List.find?_some hp
    refine ⟨fun h => (nomatch h), fun h => ?_⟩
    rw [h p hm] at hn; cases hn
  · rename_i hp
    rw [List.find?_eq_none] at hp
    exact ⟨fun _ p hm => by simpa using hp p hm, fun _ => rfl⟩

theorem deeper_ok {depth next : Int} :
    deeper depth = .ok next ↔ next = depth + 1 ∧ next ≤ maxDepth := by
  unfold deeper
  split
  · rename_i hlt
    constructor
    · intro h
      cases h
      exact ⟨rfl, hlt⟩
    · rintro ⟨rfl, -⟩
      rfl
  · rename_i hge
    refine ⟨fun h => (nomatch h), ?_⟩
    rintro ⟨rfl, hle⟩
    exact absurd hle hge

theorem deeper_error {depth : Int} {err : EventError} :
    deeper depth = .error err ↔ maxDepth ≤ depth ∧ err = .overflow := by
  unfold deeper
  split
  · rename_i hlt
    exact ⟨fun h => (nomatch h), fun h => absurd h.1 (Int.not_le.mpr hlt)⟩
  · rename_i hge
    exact ⟨fun h => ⟨Int.not_lt.mp hge, (Except.error.inj h).symm⟩, fun h => congrArg _ h.2.symm⟩

theorem checkDepth_ok {r : Room} {e : Event} :
    r.checkDepth e = .ok () ↔ e.depth = r.deepestParent e + 1 ∧ e.depth ≤ maxDepth := by
  unfold checkDepth
  constructor
  · intro h
    obtain ⟨expected, hexpected, h⟩ := bind_ok.mp h
    split at h
    · rename_i hdepth
      exact hdepth ▸ deeper_ok.mp hexpected
    · cases h
  · intro h
    exact bind_ok.mpr ⟨e.depth, deeper_ok.mpr h, if_pos rfl⟩

/-- The check of a depth fails if no depth is below the deepest parent, or if it is another one. -/
theorem checkDepth_error {r : Room} {e : Event} {err : EventError} :
    r.checkDepth e = .error err ↔ maxDepth ≤ r.deepestParent e ∧ err = .overflow ∨
      r.deepestParent e < maxDepth ∧ e.depth ≠ r.deepestParent e + 1 ∧
        err = .graph (.wrongDepth e.id e.depth (r.deepestParent e + 1)) := by
  unfold checkDepth
  rw [bind_error, deeper_error]
  refine or_congr Iff.rfl ⟨?_, ?_⟩
  · rintro ⟨expected, hexpected, h⟩
    obtain ⟨rfl, hle⟩ := deeper_ok.mp hexpected
    split at h
    · cases h
    · rename_i hne
      exact ⟨hle, hne, (Except.error.inj h).symm⟩
  · rintro ⟨hlt, hne, rfl⟩
    exact ⟨_, deeper_ok.mpr ⟨rfl, hlt⟩, if_neg hne⟩

/-- Adding an event fails for its depth only behind the other checks. -/
theorem addEvent_error {r : Room} {e : Event} {err : EventError} (h : r.addEvent e = .error err) :
    (∃ cause, err = .graph cause ∧ ∀ id found expected, cause ≠ .wrongDepth id found expected) ∨
      r.checkNew e = .ok () ∧ r.checkExtremities e = .ok () ∧ r.checkDepth e = .error err := by
  unfold addEvent at h
  rcases bind_error.mp h with h | ⟨⟨⟩, hnew, h⟩
  · exact .inl (checkNew_error h)
  · rcases bind_error.mp h with h | ⟨⟨⟩, htips, h⟩
    · exact .inl (checkExtremities_error h)
    · exact .inr ⟨hnew, htips, (bind_error.mp h).resolve_right fun ⟨_, _, h⟩ => nomatch h⟩

theorem addEvent_of_checkDepth {r : Room} {e : Event} {err : EventError}
    (hnew : r.checkNew e = .ok ()) (htips : r.checkExtremities e = .ok ())
    (h : r.checkDepth e = .error err) : r.addEvent e = .error err := by
  unfold addEvent
  rw [hnew, htips, h]
  rfl

/-- Adding an event overflows iff the event passes the checks before and one of its parents is as
deep as can be. -/
theorem addEvent_overflow_iff {r : Room} {e : Event} : r.addEvent e = .error .overflow ↔
    r.checkNew e = .ok () ∧ r.checkExtremities e = .ok () ∧ maxDepth ≤ r.deepestParent e := by
  constructor
  · intro h
    obtain ⟨cause, hcause, -⟩ | ⟨hnew, htips, hdepth⟩ := addEvent_error h
    · cases hcause
    · obtain ⟨hdeep, -⟩ | ⟨-, -, h⟩ := checkDepth_error.mp hdepth
      · exact ⟨hnew, htips, hdeep⟩
      · cases h
  · rintro ⟨hnew, htips, hdeep⟩
    exact addEvent_of_checkDepth hnew htips (checkDepth_error.mpr (.inl ⟨hdeep, rfl⟩))

/-- An event is appended on top of forward extremities iff it fits and those are its parents. -/
theorem addEvent_ok {r next : Room} {e : Event} : r.addEvent e = .ok next ↔
    r.Fits e ∧ (∀ p ∈ e.prevEvents, p ∈ r.forwardExtremities) ∧ next = r.append e := by
  unfold addEvent
  rw [checked_ok, checked_ok, checked_ok, checkNew_ok, checkExtremities_ok, checkDepth_ok]
  constructor
  · rintro ⟨⟨h₁, h₂, h₃⟩, h₄, ⟨h₅, h₆⟩, h₇⟩
    exact ⟨⟨h₁, h₂, h₃, h₅, h₆⟩, h₄, (Except.ok.inj h₇).symm⟩
  · rintro ⟨⟨h₁, h₂, h₃, h₅, h₆⟩, h₄, rfl⟩
    exact ⟨⟨h₁, h₂, h₃⟩, h₄, ⟨h₅, h₆⟩, rfl⟩

/-- An event is appended as a fork iff it fits and its parents are recorded. -/
theorem addForkEvent_ok {r next : Room} {e : Event} : r.addForkEvent e = .ok next ↔
    r.Fits e ∧ (∀ p ∈ e.prevEvents, r.contains p = true) ∧ next = r.append e := by
  unfold addForkEvent
  rw [checked_ok, checked_ok, checked_ok, checkNew_ok, checkRecorded_ok, checkDepth_ok]
  constructor
  · rintro ⟨⟨h₁, h₂, h₃⟩, h₄, ⟨h₅, h₆⟩, h₇⟩
    exact ⟨⟨h₁, h₂, h₃, h₅, h₆⟩, h₄, (Except.ok.inj h₇).symm⟩
  · rintro ⟨⟨h₁, h₂, h₃, h₅, h₆⟩, h₄, rfl⟩
    exact ⟨⟨h₁, h₂, h₃⟩, h₄, ⟨h₅, h₆⟩, rfl⟩

/-! ## Building -/

/-- Anything but a create event asks for a room that was created. -/
theorem checkStart_ok {r : Room} {t : EventTemplate} (h : t.type ≠ "m.room.create") :
    r.checkStart t = .ok () ↔ (r.stateEvent? .create).isSome = true := by
  unfold checkStart
  rw [if_neg h]
  cases (r.stateEvent? .create).isSome with
  | true => exact ⟨fun _ => rfl, fun _ => rfl⟩
  | false => exact ⟨fun h => (nomatch h), fun h => (nomatch h)⟩

/-- A create event asks for a room without events. -/
theorem checkStart_create {r : Room} {t : EventTemplate} (h : t.type = "m.room.create") :
    r.checkStart t = .ok () ↔ r.events = [] := by
  unfold checkStart isEmpty
  rw [if_pos h]
  cases r.events <;> simp

/-- The depth that recorded parents give. -/
theorem nextDepth_of_recorded {r : Room} {parents : List String}
    (h : ∀ p ∈ parents, r.contains p = true) : r.nextDepth parents =
      deeper (((parents.filterMap r.event?).map Event.depth).foldl max 0) := by
  unfold nextDepth
  refine bind_of_ok ?_
  induction parents with
  | nil => rfl
  | cons p parents ih =>
    obtain ⟨hp, hparents⟩ := List.forall_mem_cons.mp h
    obtain ⟨e, he⟩ := event?_isSome hp
    rw [List.mapM_cons, ih hparents, List.filterMap_cons_some he, he]
    rfl

/-- The event of a template at this depth, on these parents. -/
def builtOn (r : Room) (origin : String) (now : Int) (t : EventTemplate) (parents : List String)
    (depth : Int) : UnsignedEvent :=
  let fields : EventFields := ⟨r.roomId, t.sender, t.type, t.stateKey, t.content, parents,
    r.authorising t, depth, t.timestamp.getD now⟩
  ⟨r.version, fields, applyOverrides t.overrides (protoOf r.version fields origin)⟩

/-- A room builds an event of a template that passes the checks, if the parents are recorded. -/
theorem buildOn_ok {r : Room} {origin : String} {now : Int} {t : EventTemplate}
    {parents : List String} {u : UnsignedEvent} : r.buildOn origin now t parents = .ok u ↔
      t.check r.version = .ok () ∧ r.checkStart t = .ok () ∧
        ∃ depth, r.nextDepth parents = .ok depth ∧ u = r.builtOn origin now t parents depth := by
  unfold buildOn
  rw [checked_ok, checked_ok, bind_ok]
  refine and_congr_right fun _ => and_congr_right fun _ => exists_congr fun depth =>
    and_congr_right fun _ => ?_
  exact ⟨fun h => (Except.ok.inj h).symm, fun h => h ▸ rfl⟩

/-- The event of a template at this depth, on the forward extremities of a room. -/
def built (r : Room) (origin : String) (now : Int) (t : EventTemplate) (depth : Int) :
    UnsignedEvent :=
  r.builtOn origin now t r.forwardExtremities depth

theorem build_ok {r : Room} {origin : String} {now : Int} {t : EventTemplate} {u : UnsignedEvent} :
    r.build origin now t = .ok u ↔ t.check r.version = .ok () ∧ r.checkStart t = .ok () ∧
      ∃ depth, r.nextDepth r.forwardExtremities = .ok depth ∧ u = r.built origin now t depth :=
  buildOn_ok

/-- An event that is built, signed and appended is appended on top of forward extremities. -/
theorem createAndAdd_ok {r next : Room} {s : Identity} {now : Int} {t : EventTemplate} {e : Event}
    (h : r.createAndAdd s now t = .ok (e, next)) :
    (∃ u, r.build s.serverName now t = .ok u ∧ e = s.signEvent u) ∧ r.addEvent e = .ok next := by
  unfold createAndAdd at h
  obtain ⟨u, hu, h⟩ := bind_ok.mp h
  obtain ⟨n, hn, h⟩ := bind_ok.mp h
  cases h
  exact ⟨⟨u, hu, rfl⟩, hn⟩

/-! ## Runs -/

/-- A call that may append an event to a room. -/
inductive Call where
  | add (e : Event)
  | fork (e : Event)
  | create (s : Identity) (now : Int) (t : EventTemplate)

/-- What a call makes of a room. -/
def call (r : Room) : Call → Except EventError Room
  | .add e => r.addEvent e
  | .fork e => r.addForkEvent e
  | .create s now t => (r.createAndAdd s now t).map Prod.snd

/-- The room after a call, which is the same room if the call is refused. -/
def after (r : Room) (c : Call) : Room :=
  match r.call c with
  | .ok next => next
  | .error _ => r

/-- The room after these calls, one after the other. -/
def afterAll (r : Room) (calls : List Call) : Room := calls.foldl after r

theorem after_of_ok {r s : Room} {c : Call} (h : r.call c = .ok s) : r.after c = s := by
  unfold after
  rw [h]

theorem after_of_error {r : Room} {c : Call} {err : EventError} (h : r.call c = .error err) :
    r.after c = r := by
  unfold after
  rw [h]

theorem after_add_of_ok {r s : Room} {e : Event} (h : r.addEvent e = .ok s) :
    r.after (.add e) = s := after_of_ok h

theorem after_add_of_error {r : Room} {e : Event} {err : EventError}
    (h : r.addEvent e = .error err) : r.after (.add e) = r := after_of_error h

theorem after_fork_of_ok {r s : Room} {e : Event} (h : r.addForkEvent e = .ok s) :
    r.after (.fork e) = s := after_of_ok h

theorem after_fork_of_error {r : Room} {e : Event} {err : EventError}
    (h : r.addForkEvent e = .error err) : r.after (.fork e) = r := after_of_error h

theorem after_create_of_ok {r next : Room} {s : Identity} {now : Int} {t : EventTemplate}
    {e : Event} (h : r.createAndAdd s now t = .ok (e, next)) :
    r.after (.create s now t) = next := after_of_ok (map_ok.mpr ⟨(e, next), h, rfl⟩)

theorem after_create_of_error {r : Room} {s : Identity} {now : Int} {t : EventTemplate}
    {err : EventError} (h : r.createAndAdd s now t = .error err) :
    r.after (.create s now t) = r := after_of_error (congrArg (Except.map Prod.snd) h)

theorem version_after (r : Room) (c : Call) : (r.after c).version = r.version := by
  unfold after
  cases hc : r.call c with
  | error err => rfl
  | ok next =>
    cases c with
    | add e =>
      obtain ⟨-, -, rfl⟩ := addEvent_ok.mp hc
      exact version_append r e
    | fork e =>
      obtain ⟨-, -, rfl⟩ := addForkEvent_ok.mp hc
      exact version_append r e
    | create s now t =>
      obtain ⟨made, hmade, rfl⟩ := map_ok.mp hc
      obtain ⟨-, -, hnext⟩ := addEvent_ok.mp (createAndAdd_ok hmade).2
      rw [hnext, version_append]

theorem version_afterAll (r : Room) (calls : List Call) : (r.afterAll calls).version = r.version := by
  induction calls generalizing r with
  | nil => rfl
  | cons c calls ih => exact (ih (r.after c)).trans (version_after r c)

/-- The bookkeeping of a room that holds however its first events came in. -/
structure Consistent (r : Room) : Prop where
  /-- The timeline lists the recorded events. -/
  recorded : r.timeline = r.events.map Event.id
  nodup : r.timeline.Nodup
  /-- The forward extremities are recorded. -/
  tips : ∀ id ∈ r.forwardExtremities, r.contains id = true
  ordered : Table.Sorted r.extremities

/-- The forward extremities are recorded, which is all that a room needs for events on top of them
to have recorded parents. -/
def Anchored (r : Room) : Prop := ∀ id ∈ r.forwardExtremities, r.contains id = true

/-- An event that a call appends: it fits, and its parents are recorded. -/
structure Appends (r : Room) (e : Event) : Prop extends r.Fits e where
  parents : ∀ p ∈ e.prevEvents, r.contains p = true

theorem Appends.ne_of_contains {r : Room} {e : Event} (he : r.Appends e) {id : String}
    (h : r.contains id = true) : id ≠ e.id := by
  rintro rfl
  rw [he.new] at h
  cases h

/-- The parents of the first event of a room are none. -/
theorem Appends.prevEvents_nil {r : Room} {e : Event} (he : r.Appends e) (h : r.events = []) :
    e.prevEvents = [] := by
  refine List.eq_nil_iff_forall_not_mem.mpr fun p hp => ?_
  have := contains_iff.mp (he.parents p hp)
  rw [h] at this
  cases this

/-- What is recorded stays under its id. -/
theorem Appends.event?_append {r : Room} {e : Event} (he : r.Appends e) {id : String} {f : Event}
    (hf : r.event? id = some f) : (r.append e).event? id = some f := by
  have hne : id ≠ e.id := he.ne_of_contains (Option.isSome_iff_exists.mpr ⟨f, hf⟩)
  rw [Room.event?_append, if_neg hne.symm, hf]

theorem appends_of_addEvent {r next : Room} {e : Event} (hr : r.Anchored)
    (h : r.addEvent e = .ok next) : r.Appends e ∧ next = r.append e := by
  obtain ⟨hf, hp, hn⟩ := addEvent_ok.mp h
  exact ⟨⟨hf, fun p hm => hr p (hp p hm)⟩, hn⟩

theorem appends_of_addForkEvent {r next : Room} {e : Event} (h : r.addForkEvent e = .ok next) :
    r.Appends e ∧ next = r.append e := by
  obtain ⟨hf, hp, hn⟩ := addForkEvent_ok.mp h
  exact ⟨⟨hf, hp⟩, hn⟩

/-- A call leaves a room as it is or appends one event to it. -/
theorem after_cases {r : Room} (hr : r.Anchored) (c : Call) :
    r.after c = r ∨ ∃ e, r.Appends e ∧ r.after c = r.append e := by
  unfold after
  cases hc : r.call c with
  | error err => exact .inl rfl
  | ok next =>
    right
    cases c with
    | add e => exact ⟨e, appends_of_addEvent hr hc⟩
    | fork e => exact ⟨e, appends_of_addForkEvent hc⟩
    | create s now t =>
      obtain ⟨made, hm, rfl⟩ := map_ok.mp hc
      exact ⟨made.1, appends_of_addEvent hr (createAndAdd_ok hm).2⟩

theorem Anchored.append {r : Room} (hr : r.Anchored) (e : Event) : (r.append e).Anchored := by
  intro id h
  rcases mem_extremities_append.mp h with rfl | ⟨h, -⟩
  · exact (contains_append _ _ _).mpr (.inl rfl)
  · exact (contains_append _ _ _).mpr (.inr (hr id h))

theorem consistent_new (roomId : String) (version : RoomVersion) :
    (Room.new roomId version).Consistent where
  recorded := rfl
  nodup := List.nodup_nil
  tips := fun _ h => nomatch h
  ordered := Table.sorted_nil

theorem Consistent.append {r : Room} (hr : r.Consistent) {e : Event}
    (he : r.contains e.id = false) : (r.append e).Consistent where
  recorded := by rw [timeline_append, events_append he, hr.recorded, List.map_append]; rfl
  nodup := by
    rw [timeline_append]
    refine List.nodup_append.mpr ⟨hr.nodup, by simp, ?_⟩
    rintro a ha b hb rfl
    rw [hr.recorded] at ha
    rw [List.mem_singleton.mp hb, ← contains_iff, he] at ha
    cases ha
  tips := Anchored.append hr.tips e
  ordered := by
    rw [extremities_append]
    exact KeySet.sorted_add (KeySet.sorted_removeAll hr.ordered _) _

/-! ## Growth -/

/-- A room becomes another one by appending these events, one after the other. -/
inductive Grows (r : Room) : List Event → Room → Prop
  | refl : Grows r [] r
  | append {l : List Event} {s : Room} {e : Event} : Grows r l s → s.Appends e →
      Grows r (l ++ [e]) (s.append e)

section Grows

variable {r s t : Room} {l l' : List Event}

theorem Grows.trans (h : r.Grows l s) (h' : s.Grows l' t) : r.Grows (l ++ l') t := by
  induction h' with
  | refl => rw [List.append_nil]; exact h
  | append _ he ih => rw [← List.append_assoc]; exact ih.append he

/-- A room grows by the event that a call appends, if there is one. -/
theorem grows_after (hr : r.Anchored) (c : Call) : ∃ l, r.Grows l (r.after c) := by
  rcases after_cases hr c with h | ⟨e, he, h⟩
  · rw [h]; exact ⟨[], .refl⟩
  · rw [h]; exact ⟨[] ++ [e], .append .refl he⟩

theorem Grows.anchored (h : r.Grows l s) (hr : r.Anchored) : s.Anchored := by
  induction h with
  | refl => exact hr
  | append _ _ ih => exact ih.append _

/-- Every run of calls makes a room grow. -/
theorem grows_afterAll (hr : r.Anchored) (calls : List Call) :
    ∃ l, r.Grows l (r.afterAll calls) := by
  induction calls generalizing r with
  | nil => exact ⟨[], .refl⟩
  | cons c calls ih =>
    obtain ⟨l, hl⟩ := grows_after hr c
    obtain ⟨l', hl'⟩ := ih (hl.anchored hr)
    exact ⟨l ++ l', hl.trans hl'⟩

/-- What holds of a consistent room and is kept by every appended event is kept as it grows. -/
theorem Grows.induction {P : Room → Prop}
    (step : ∀ r e, r.Consistent → P r → r.Appends e → P (r.append e)) (h : r.Grows l s)
    (hc : r.Consistent) (hp : P r) : s.Consistent ∧ P s := by
  induction h with
  | refl => exact ⟨hc, hp⟩
  | append _ he ih => exact ⟨ih.1.append he.new, step _ _ ih.1 ih.2 he⟩

/-! ### What grows -/

theorem Grows.events_eq (h : r.Grows l s) : s.events = r.events ++ l := by
  induction h with
  | refl => rw [List.append_nil]
  | append _ he ih => rw [events_append he.new, ih, List.append_assoc]

theorem Grows.timeline_eq (h : r.Grows l s) : s.timeline = r.timeline ++ l.map Event.id := by
  induction h with
  | refl => rw [List.map_nil, List.append_nil]
  | append _ _ ih => rw [timeline_append, ih, List.map_append, List.append_assoc]; rfl

/-- What is recorded stays under its id. -/
theorem Grows.event? (h : r.Grows l s) {id : String} {f : Event} (hf : r.event? id = some f) :
    s.event? id = some f := by
  induction h with
  | refl => exact hf
  | append _ he ih => exact he.event?_append ih

theorem Grows.contains_iff (h : r.Grows l s) {id : String} :
    s.contains id = true ↔ r.contains id = true ∨ id ∈ l.map Event.id := by
  rw [Room.contains_iff, Room.contains_iff, h.events_eq, List.map_append, List.mem_append]

/-- The events by which a room grows are new to it. -/
theorem Grows.new (h : r.Grows l s) {e : Event} (he : e ∈ l) : r.contains e.id = false := by
  induction h with
  | refl => cases he
  | append h' he' ih =>
    rcases List.mem_append.mp he with he | he
    · exact ih he
    · rw [List.mem_singleton.mp he, Bool.eq_false_iff]
      intro hc
      have := h'.contains_iff.mpr (.inl hc)
      rw [he'.new] at this
      cases this

/-- The parents of the events by which a room grows are recorded. -/
theorem Grows.parents (h : r.Grows l s) {e : Event} (he : e ∈ l) {p : String}
    (hp : p ∈ e.prevEvents) : s.contains p = true := by
  induction h with
  | refl => cases he
  | append _ he' ih =>
    refine (contains_append _ _ _).mpr (.inr ?_)
    rcases List.mem_append.mp he with he | he
    · exact ih he
    · rw [List.mem_singleton.mp he] at hp
      exact he'.parents p hp

end Grows

/-! ## Growth at the tips -/

/-- A room becomes another one by appending these events on top of forward extremities, one after
the other. -/
inductive Continues (r : Room) : List Event → Room → Prop
  | refl : Continues r [] r
  | add {l : List Event} {s t : Room} {e : Event} : Continues r l s → s.addEvent e = .ok t →
      Continues r (l ++ [e]) t

section Continues

variable {r s t : Room} {l l' : List Event}

theorem Continues.trans (h : r.Continues l s) (h' : s.Continues l' t) :
    r.Continues (l ++ l') t := by
  induction h' with
  | refl => rw [List.append_nil]; exact h
  | add _ hadd ih => rw [← List.append_assoc]; exact ih.add hadd

theorem continues_of_addEvent {e : Event} (h : r.addEvent e = .ok s) : r.Continues [e] s :=
  Continues.add (l := []) .refl h

theorem Continues.eq_of_nil (h : r.Continues [] s) : s = r := by
  generalize hl : ([] : List Event) = l at h
  cases h with
  | refl => rfl
  | add _ _ => exact absurd hl.symm (List.append_ne_nil_of_right_ne_nil _ (List.cons_ne_nil _ _))

theorem Continues.grows (h : r.Continues l s) (hr : r.Anchored) : r.Grows l s := by
  induction h with
  | refl => exact .refl
  | add _ hadd ih =>
    obtain ⟨he, rfl⟩ := appends_of_addEvent (ih.anchored hr) hadd
    exact ih.append he

theorem Continues.events_eq (h : r.Continues l s) : s.events = r.events ++ l := by
  induction h with
  | refl => rw [List.append_nil]
  | add _ hadd ih =>
    obtain ⟨he, -, rfl⟩ := addEvent_ok.mp hadd
    rw [events_append he.new, ih, List.append_assoc]

theorem Continues.roomId_eq (h : r.Continues l s) : s.roomId = r.roomId := by
  induction h with
  | refl => rfl
  | add _ hadd ih =>
    obtain ⟨-, -, rfl⟩ := addEvent_ok.mp hadd
    rw [roomId_append, ih]

theorem Continues.version_eq (h : r.Continues l s) : s.version = r.version := by
  induction h with
  | refl => rfl
  | add _ hadd ih =>
    obtain ⟨-, -, rfl⟩ := addEvent_ok.mp hadd
    rw [version_append, ih]

/-- A recorded event that is no forward extremity never becomes one again. -/
theorem Continues.not_tip (h : r.Continues l s) (hr : r.Anchored) {id : String}
    (hid : r.contains id = true) (htip : id ∉ r.forwardExtremities) :
    id ∉ s.forwardExtremities := by
  induction h with
  | refl => exact htip
  | add h' hadd ih =>
    obtain ⟨he, rfl⟩ := appends_of_addEvent ((h'.grows hr).anchored hr) hadd
    intro htip'
    rcases mem_extremities_append.mp htip' with rfl | ⟨htip', -⟩
    · exact he.ne_of_contains ((h'.grows hr).contains_iff.mpr (.inl hid)) rfl
    · exact ih htip'

/-- Each appended event takes the place of a forward extremity, so as soon as one was appended, some
of the forward extremities from before are gone. -/
theorem Continues.consumes (h : r.Continues l s) (hr : r.Anchored) (hne : r.events ≠ [])
    (hl : l ≠ []) : ∃ id ∈ r.forwardExtremities, id ∉ s.forwardExtremities := by
  induction h with
  | refl => exact absurd rfl hl
  | @add l s t e h' hadd ih =>
    have hlast := continues_of_addEvent hadd
    have hs := (h'.grows hr).anchored hr
    by_cases hl' : l = []
    · subst hl'
      cases h'.eq_of_nil
      obtain ⟨he, htips, rfl⟩ := addEvent_ok.mp hadd
      obtain ⟨p, hp⟩ := List.exists_mem_of_ne_nil _ fun hnil => hne (he.root hnil)
      refine ⟨p, htips p hp, fun hp' => ?_⟩
      rcases mem_extremities_append.mp hp' with rfl | ⟨-, hp'⟩
      · exact absurd (hr _ (htips _ hp)) (by rw [he.new]; exact Bool.false_ne_true)
      · exact hp' hp
    · obtain ⟨id, hid, hgone⟩ := ih hl'
      exact ⟨id, hid, hlast.not_tip hs ((h'.grows hr).contains_iff.mpr (.inl (hr id hid))) hgone⟩

end Continues

end Room

end Homeserver
