/-
Two rooms in step: of one id and version, with the same forward extremities at the same depths and
the same state, whatever else the one and the other have recorded. An event that is built on one of
them is accepted from its JSON, the other one takes it too, and they stay in step.
-/
import Homeserver.Proofs.Event.Proposal
import Homeserver.Proofs.Room.RemoteJoin

namespace Homeserver

/-! ## Templates -/

/-- Only raw templates have overrides, as every way to make a template sees to it. -/
def EventTemplate.Sound (t : EventTemplate) : Prop := t.raw = false → t.overrides = []

namespace EventTemplate

theorem sound_message (type sender : String) (content : Json) :
    (message type sender content).Sound := fun _ => rfl

theorem sound_state (type sender stateKey : String) (content : Json) :
    (state type sender stateKey content).Sound := fun _ => rfl

theorem Sound.atTime {t : EventTemplate} (h : t.Sound) (timestamp : Int) :
    (t.atTime timestamp).Sound := h

theorem sound_unchecked (t : EventTemplate) : t.unchecked.Sound := fun h => nomatch h

theorem sound_override (t : EventTemplate) (key : String) (value : Json) :
    (t.override key value).Sound := fun h => nomatch h

/-- A template of an event that is to be well formed, and not to start a room. -/
structure Ordinary (t : EventTemplate) : Prop where
  sound : t.Sound
  notRaw : t.raw = false
  notCreate : t.type ≠ "m.room.create"

/-- The content of a template that was checked is an object, and strict where the version asks for
that. -/
theorem content_of_check {t : EventTemplate} {version : RoomVersion} (hraw : t.raw = false)
    (h : t.check version = .ok ()) : t.content.isObject = true ∧
      (version.strictJson = true → t.content.Strict) := by
  unfold check at h
  rw [hraw, if_neg Bool.false_ne_true] at h
  cases hobject : t.content.isObject with
  | false => simp [hobject] at h
  | true =>
    rw [hobject, Bool.not_true, if_neg Bool.false_ne_true] at h
    obtain ⟨hstrict, -⟩ := checked_ok.mp h
    refine ⟨rfl, fun hv => ?_⟩
    unfold checkStrict at hstrict
    rw [if_pos hv] at hstrict
    exact Json.checkStrict_ok.mp (mapError_ok.mp hstrict)

end EventTemplate

namespace Room

/-! ## Events that are built -/

/-- What a room builds of a template that is checked has the JSON of its fields, whose content is
what the check asks for. -/
theorem build_checked {r : Room} {origin : String} {now : Int} {t : EventTemplate}
    {u : UnsignedEvent} (ht : t.Sound) (hraw : t.raw = false)
    (h : r.build origin now t = .ok u) :
    u.version = r.version ∧ u.proto = protoOf r.version u.fields origin ∧
      u.fields.content.isObject = true ∧
      (r.version.strictJson = true → u.fields.content.Strict) := by
  obtain ⟨hcheck, -, depth, -, rfl⟩ := build_ok.mp h
  refine ⟨rfl, ?_, EventTemplate.content_of_check hraw hcheck⟩
  show applyOverrides t.overrides _ = _
  rw [ht hraw]
  rfl

/-- If the template is not to start a room, the room was created. -/
theorem build_ordinary {r : Room} {origin : String} {now : Int} {t : EventTemplate}
    {u : UnsignedEvent} (ht : t.Ordinary) (h : r.build origin now t = .ok u) :
    (r.stateEvent? .create).isSome = true ∧ u.version = r.version ∧
      u.proto = protoOf r.version u.fields origin ∧ u.fields.content.isObject = true ∧
      (r.version.strictJson = true → u.fields.content.Strict) := by
  obtain ⟨-, hstart, -⟩ := build_ok.mp h
  exact ⟨(checkStart_ok ht.notCreate).mp hstart, build_checked ht.sound ht.notRaw h⟩

/-- An event that a room has appended on top of its forward extremities, and that is read from its
JSON as it is. -/
structure Issued (r : Room) (e : Event) (next : Room) : Prop where
  added : r.addEvent e = .ok next
  child : e.prevEvents ≠ []
  parsed : Event.ofPdu r.version e.json = .ok e

theorem issued_of_createAndAdd {r next : Room} {s : Identity} {now : Int} {t : EventTemplate}
    {e : Event} (ht : t.Ordinary) (h : r.createAndAdd s now t = .ok (e, next))
    (hdepth : Json.Safe e.depth) (htime : Json.Safe e.timestamp) : r.Issued e next := by
  obtain ⟨⟨u, hbuild, rfl⟩, hadd⟩ := createAndAdd_ok h
  obtain ⟨hcreate, hversion, hproto, hobject, hstrict⟩ := build_ordinary ht hbuild
  refine ⟨hadd, fun hnil => ?_, ?_⟩
  · -- only the first event of a room has no parents
    exact events_ne_nil_of_stateEvent? hcreate ((addEvent_ok.mp hadd).1.root hnil)
  · rw [← hversion] at hproto hstrict ⊢
    exact (ofPdu_signEvent_iff hproto hobject hstrict s).mpr
      ⟨rfl, .of_safe hdepth _, .of_safe htime _⟩

/-! ## Rooms in step -/

/-- Two rooms that go on in the same way. -/
structure InStep (r s : Room) : Prop where
  roomId_eq : s.roomId = r.roomId
  version_eq : s.version = r.version
  tips : ∀ id, id ∈ s.forwardExtremities ↔ id ∈ r.forwardExtremities
  depths : ∀ id ∈ r.forwardExtremities,
    (s.event? id).map Event.depth = (r.event? id).map Event.depth
  state : ∀ place, Table.find? place s.state = Table.find? place r.state

variable {r s : Room}

theorem InStep.deepestParent (h : InStep r s) {e : Event}
    (he : ∀ p ∈ e.prevEvents, p ∈ r.forwardExtremities) : s.deepestParent e = r.deepestParent e := by
  unfold Room.deepestParent
  rw [List.map_filterMap, List.map_filterMap,
    List.filterMap_congr fun p hp => h.depths p (he p hp)]

theorem InStep.append (h : InStep r s) (e : Event) : InStep (r.append e) (s.append e) where
  roomId_eq := by rw [roomId_append, roomId_append, h.roomId_eq]
  version_eq := by rw [version_append, version_append, h.version_eq]
  tips := fun id => by rw [mem_extremities_append, mem_extremities_append, h.tips]
  depths := by
    intro id hid
    rw [event?_append, event?_append]
    split
    · rfl
    · rename_i hne
      rcases mem_extremities_append.mp hid with rfl | ⟨hold, -⟩
      · exact absurd rfl hne
      · exact h.depths id hold
  state := fun place => by rw [find?_state_append, find?_state_append, h.state]

/-- What one of two rooms in step has issued the other one takes, and they stay in step. -/
theorem InStep.addEvent (h : InStep r s) {e : Event} {next : Room} (he : r.Issued e next)
    (hnew : s.contains e.id = false) :
    s.addEvent e = .ok (s.append e) ∧ InStep next (s.append e) := by
  obtain ⟨hfits, htips, rfl⟩ := addEvent_ok.mp he.added
  refine ⟨addEvent_ok.mpr ⟨⟨?_, hnew, fun hnil => absurd hnil he.child, ?_, hfits.depth_le⟩,
    fun p hp => ?_, rfl⟩, h.append e⟩
  · rw [hfits.room, h.roomId_eq]
  · rw [hfits.depth, h.deepestParent htips]
  · exact (h.tips p).mpr (htips p hp)

/-- A room that another server joins is in step with the one that it seeds. -/
theorem Settled.inStep_join (hr : r.Settled) (hcreate : (r.stateEvent? .create).isSome = true)
    {chain : List Event} (hchain : ∀ e ∈ chain, e ∈ r.events) {join : Event}
    (hroom : join.roomId = r.roomId) (hprev : join.prevEvents = r.forwardExtremities)
    (hdepth : r.depth ≤ join.depth) :
    ∃ joined, ofRemoteJoin r.version r.roomId r.currentState chain join = .ok joined ∧
      InStep (r.append join) joined := by
  obtain ⟨joined, hjoined, hid, hstate, htips, -, hevent⟩ :=
    hr.ofRemoteJoin_spec hcreate hchain hroom hdepth
  have hown : (r.append join).forwardExtremities = [join.id] := extremities_append_tips hprev
  refine ⟨joined, hjoined, ?_, ?_, fun id => ?_, fun id htip => ?_, fun place => ?_⟩
  · rw [roomId_append, hid]
  · rw [version_append, version_ofRemoteJoin hjoined]
  · rw [htips, hown]
  · rw [hown, List.mem_singleton] at htip
    rw [htip, hevent, event?_append, if_pos rfl]
  · rw [hstate, state_append]

/-! ## Runs -/

/-- A run of events that a room has issued one after the other. -/
inductive IssuedAll : Room → List Event → Room → Prop
  | nil {r : Room} : IssuedAll r [] r
  | cons {r next last : Room} {e : Event} {l : List Event} (head : r.Issued e next)
    (tail : IssuedAll next l last) : IssuedAll r (e :: l) last

theorem issuedAll_of_createEach {r last : Room} {s : Identity} {calls : List (Int × EventTemplate)}
    {made : List Event} (hcalls : ∀ c ∈ calls, c.2.Ordinary)
    (h : r.createEach s calls = .ok (made, last))
    (hsafe : ∀ e ∈ made, Json.Safe e.depth ∧ Json.Safe e.timestamp) : IssuedAll r made last := by
  induction calls generalizing r made with
  | nil => cases h; exact .nil
  | cons c calls ih =>
    obtain ⟨hc, hcalls⟩ := List.forall_mem_cons.mp hcalls
    obtain ⟨⟨e, next⟩, hcreate, h⟩ := bind_ok.mp h
    obtain ⟨⟨rest, last'⟩, hrest, h⟩ := bind_ok.mp h
    cases h
    obtain ⟨⟨hdepth, htime⟩, hsafe⟩ := List.forall_mem_cons.mp hsafe
    exact .cons (issued_of_createAndAdd hc hcreate hdepth htime) (ih hcalls hrest hsafe)

theorem IssuedAll.roomId_eq {l : List Event} {last : Room} (h : IssuedAll r l last) :
    last.roomId = r.roomId := by
  induction h with
  | nil => rfl
  | cons head tail ih =>
    obtain ⟨-, -, rfl⟩ := addEvent_ok.mp head.added
    rw [ih, roomId_append]

theorem IssuedAll.new {l : List Event} {last : Room} (h : IssuedAll r l last) :
    ∀ e ∈ l, r.contains e.id = false := by
  induction h with
  | nil => exact List.forall_mem_nil _
  | cons head tail ih =>
    obtain ⟨hfits, -, rfl⟩ := addEvent_ok.mp head.added
    refine List.forall_mem_cons.mpr ⟨hfits.new, fun f hf => Bool.eq_false_iff.mpr fun hold => ?_⟩
    exact Bool.eq_false_iff.mp (ih f hf) ((contains_append ..).mpr (.inr hold))

/-- After an issued event, the others of its run are still new to a room that takes it. -/
theorem IssuedAll.new_append {e : Event} {l : List Event} {last : Room}
    (h : IssuedAll r (e :: l) last) (hnew : ∀ f ∈ e :: l, s.contains f.id = false) :
    ∀ f ∈ l, (s.append e).contains f.id = false := by
  cases h with
  | cons head tail =>
    obtain ⟨-, -, rfl⟩ := addEvent_ok.mp head.added
    intro f hf
    refine Bool.eq_false_iff.mpr fun hheld => ?_
    rcases (contains_append ..).mp hheld with hid | hold
    · exact Bool.eq_false_iff.mp (tail.new f hf) ((contains_append ..).mpr (.inl hid))
    · exact Bool.eq_false_iff.mp (hnew f (List.mem_cons_of_mem _ hf)) hold

end Room

end Homeserver
