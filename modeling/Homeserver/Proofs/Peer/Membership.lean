/-
Memberships of users of other servers, on the side of the server that holds the room: what it
proposes on a room that grew from an empty one, and the membership event that it accepts back.
-/
import Homeserver.Peer.Membership
import Homeserver.Proofs.Event.Proposal
import Homeserver.Proofs.Room.State

namespace Homeserver

/-! ## Building memberships -/

theorem EventTemplate.check_member (version : RoomVersion) (user membership : String) :
    (EventTemplate.member user user membership).check version = .ok () := by
  have hstrict : (EventTemplate.member user user membership).content.Strict :=
    Json.strict_obj.mpr (by simp)
  have hcheck : (EventTemplate.member user user membership).checkStrict version = .ok () := by
    unfold checkStrict
    split
    · exact mapError_ok.mpr (Json.checkStrict_ok.mpr hstrict)
    · rfl
  exact checked_ok.mpr ⟨hcheck, checked_ok.mpr ⟨rfl, rfl⟩⟩

namespace Room

/-- The fields of a membership that a user sets on the forward extremities of a room. -/
def memberFields (r : Room) (user membership : String) (time : Int) : EventFields where
  roomId := r.roomId
  sender := user
  type := "m.room.member"
  stateKey := some user
  content := .obj [("membership", .str membership)]
  prevEvents := r.forwardExtremities
  authEvents := r.authorising (.member user user membership)
  depth := r.depth + 1
  timestamp := time

theorem memberFields_spec {r : Room} {e : Event} {user membership : String} {time : Int}
    (h : e.fields = r.memberFields user membership time) :
    e.roomId = r.roomId ∧ e.prevEvents = r.forwardExtremities ∧ e.depth = r.depth + 1 ∧
      e.stateKey = some e.sender ∧ e.place? = some (.member user) ∧
      e.membership = some membership := by
  unfold Event.roomId Event.prevEvents Event.depth Event.sender Event.place? Event.membership
    Event.stateKey Event.type Event.content
  rw [h]
  exact ⟨rfl, rfl, rfl, rfl, rfl, rfl⟩

/-- There is a greater depth than one that is followed by a safe integer. -/
theorem lt_maxDepth_of_safe {depth : Int} (h : Json.Safe (depth + 1)) : depth < maxDepth :=
  Int.lt_of_lt_of_le (Int.lt_of_add_one_le h.2) (by decide)

/-- A settled room that was created builds the membership of every user, if there is a depth for
it. -/
theorem Settled.build_member {r : Room} (hr : r.Settled) (hlt : r.depth < maxDepth)
    (hcreate : (r.stateEvent? .create).isSome = true) (origin user membership : String)
    (time : Int) : r.build origin time (.member user user membership) =
      .ok ⟨r.version, r.memberFields user membership time,
        protoOf r.version (r.memberFields user membership time) origin⟩ := by
  have htype : (EventTemplate.member user user membership).type ≠ "m.room.create" :=
    show "m.room.member" ≠ "m.room.create" by decide
  exact hr.build_iff.mpr ⟨EventTemplate.check_member r.version user membership,
    (checkStart_ok htype).mpr hcreate, hlt, rfl⟩

/-- A settled room that builds a membership was created, and there is a depth for the membership. -/
theorem Settled.of_build_member {r : Room} (hr : r.Settled) {origin user membership : String}
    {time : Int} {u : UnsignedEvent}
    (h : r.build origin time (.member user user membership) = .ok u) :
    (r.stateEvent? .create).isSome = true ∧ r.depth < maxDepth := by
  have htype : (EventTemplate.member user user membership).type ≠ "m.room.create" :=
    show "m.room.member" ≠ "m.room.create" by decide
  obtain ⟨-, hstart, hlt, -⟩ := hr.build_iff.mp h
  exact ⟨(checkStart_ok htype).mp hstart, hlt⟩

/-- A new event on all forward extremities of a settled room is appended. -/
theorem Settled.addEvent_tips {r : Room} (hr : r.Settled) (hlt : r.depth < maxDepth) (hne : r.events ≠ []) {e : Event}
    (hroom : e.roomId = r.roomId) (hnew : r.contains e.id = false)
    (hprev : e.prevEvents = r.forwardExtremities) (hdepth : e.depth = r.depth + 1) :
    r.addEvent e = .ok (r.append e) := by
  refine addEvent_ok.mpr
    ⟨⟨hroom, hnew, fun hnil => ?_, ?_, hdepth ▸ hlt⟩, fun p hp => hprev ▸ hp, rfl⟩
  · exact absurd (hprev ▸ hnil) (hr.extremities_ne_nil hne)
  · rw [hdepth, hr.deepestParent_tips hprev]

/-- The membership that a server signs under a name and at a time of its own. -/
def memberEvent (r : Room) (s : Identity) (origin user membership : String) (now : Int) : Event :=
  s.signEvent ⟨r.version, r.memberFields user membership now,
    protoOf r.version (r.memberFields user membership now) origin⟩

/-- A signed membership is accepted from its JSON as it is. -/
theorem ofPdu_memberEvent {r : Room} {now : Int} (hnow : Json.Safe now)
    (hdepth : Json.Safe (r.depth + 1)) (s : Identity) (origin user membership : String) :
    Event.ofPdu r.version (r.memberEvent s origin user membership now).json =
      .ok (r.memberEvent s origin user membership now) := by
  have hcontent : (r.memberFields user membership now).content.Strict :=
    Json.strict_obj.mpr (by simp)
  exact (ofPdu_signEvent_iff (u := ⟨r.version, r.memberFields user membership now, _⟩) rfl rfl
    (fun _ => hcontent) s).mpr ⟨rfl, .of_safe hdepth _, .of_safe hnow _⟩

end Room

namespace Peer

theorem room?_holdRoom (p : Peer) (r : Room) (roomId : String) :
    (p.holdRoom r).room? roomId = if r.roomId = roomId then some r else p.room? roomId :=
  Table.find?_insert _ _ _ _

/-! ## Proposing -/

theorem knownRoom_ok {p : Peer} {roomId : String} {r : Room} :
    p.knownRoom roomId = .ok r ↔ p.room? roomId = some r := by
  unfold knownRoom
  cases p.room? roomId with
  | none => exact ⟨fun h => (nomatch h), fun h => (nomatch h)⟩
  | some s => exact ⟨fun h => congrArg some (Except.ok.inj h), fun h => by cases h; rfl⟩

/-- A query that names every version offers every version. -/
theorem isOffered_all {query : List Char}
    (h : Form.decode query = RoomVersion.all.map fun v => ("ver", v.id)) (version : RoomVersion) :
    isOffered query version = true := by
  have hoffered : offeredVersions query = some (RoomVersion.all.map RoomVersion.id) := by
    unfold offeredVersions
    rw [h]
    rfl
  unfold isOffered
  rw [hoffered]
  cases version <;> decide

/-- The answer of a peer that proposes a membership. -/
def proposal (p : Peer) (r : Room) (h : Handshake) (now : Int) (user : String) : Json :=
  Json.object [
    ("event", .obj (Room.protoOf r.version (r.memberFields user h.membership now) p.serverName)),
    ("room_version", .str r.version.id)]

theorem proposeMembership_ok {p : Peer} {r : Room} {h : Handshake} {query : List Char}
    (hheld : p.room? r.roomId = some r) (hr : r.Settled) (hlt : r.depth < Room.maxDepth)
    (hcreate : (r.stateEvent? .create).isSome = true) (hof : h.isOf r.version = true)
    (hoffered : isOffered query r.version = true) (now : Int) (user : String) :
    p.proposeMembership h now r.roomId user query = .ok (p.proposal r h now user) := by
  unfold proposeMembership knownRoom
  rw [hheld]
  simp only [hof, hoffered, hr.build_member hlt hcreate, bind, Except.bind, Except.mapError, pure,
    Except.pure, Bool.not_true, Bool.false_eq_true, if_false]
  rfl

/-- What a peer proposes on a settled room is the membership on all its forward extremities, and only
if the room was created and there is a depth for the membership. -/
theorem proposeMembership_cases {p : Peer} {r : Room} {h : Handshake} {query : List Char} {now : Int}
    {user : String} {body : Json} (hheld : p.room? r.roomId = some r) (hr : r.Settled)
    (hproposed : p.proposeMembership h now r.roomId user query = .ok body) :
    (r.stateEvent? .create).isSome = true ∧ r.depth < Room.maxDepth ∧
      body = p.proposal r h now user := by
  have hbody := hproposed
  unfold proposeMembership at hproposed
  obtain ⟨s, hs, hproposed⟩ := bind_ok.mp hproposed
  cases hheld.symm.trans (knownRoom_ok.mp hs)
  obtain ⟨hoffered, hproposed⟩ := unless_ok.mp hproposed
  obtain ⟨hof, hproposed⟩ := unless_ok.mp hproposed
  obtain ⟨built, hbuilt, -⟩ := bind_ok.mp hproposed
  obtain ⟨hcreate, hlt⟩ := hr.of_build_member (mapError_ok.mp hbuilt)
  rw [proposeMembership_ok hheld hr hlt hcreate (by simpa using hof) (by simpa using hoffered)] at hbody
  exact ⟨hcreate, hlt, (Except.ok.inj hbody).symm⟩

/-! ## Accepting -/

/-- A signed membership of its own sender is read as it is. -/
theorem readMembership_self {version : RoomVersion} {roomId : String} {h : Handshake} {e : Event}
    (hparse : Event.ofPdu version e.json = .ok e) (hroom : e.roomId = roomId)
    (hmember : e.membership = some h.membership) (hsender : e.stateKey = some e.sender) :
    readMembership h version roomId e.id (some e.json) = .ok e := by
  unfold readMembership
  simp [hparse, hroom, hmember, hsender, bind, Except.bind, Except.mapError, pure, Except.pure]

/-- It is accepted if the room appends it. -/
theorem acceptMembership_ok {p : Peer} {r next : Room} {h : Handshake} {e : Event}
    (hheld : p.room? r.roomId = some r) (hparse : Event.ofPdu r.version e.json = .ok e)
    (hroom : e.roomId = r.roomId) (hmember : e.membership = some h.membership)
    (hsender : e.stateKey = some e.sender) (hadd : r.addEvent e = .ok next) :
    p.acceptMembership h r.roomId e.id (some e.json) = .ok (⟨e, r.currentState,
      r.authChain (authorisingIds r.currentState e), r.strippedState⟩, p.holdRoom next) := by
  unfold acceptMembership knownRoom
  simp only [hheld, readMembership_self hparse hroom hmember hsender, hadd, bind, Except.bind,
    Except.mapError, pure, Except.pure]

/-- It is refused for the reason for which the room refuses it. -/
theorem acceptMembership_error {p : Peer} {roomId : String} {r : Room} {h : Handshake} {e : Event}
    (hheld : p.room? roomId = some r) (hparse : Event.ofPdu r.version e.json = .ok e)
    (hroom : e.roomId = roomId) (hmember : e.membership = some h.membership)
    (hsender : e.stateKey = some e.sender) {err : EventError} (hadd : r.addEvent e = .error err) :
    p.acceptMembership h roomId e.id (some e.json) = .error (Refusal.ofEvent err) := by
  unfold acceptMembership knownRoom
  simp only [hheld, readMembership_self hparse hroom hmember hsender, hadd, bind, Except.bind,
    Except.mapError]

/-- A membership on all forward extremities of a settled room is accepted. -/
theorem acceptMembership_tips {p : Peer} {r : Room} (hheld : p.room? r.roomId = some r)
    (hr : r.Settled) (hlt : r.depth < Room.maxDepth) (hne : r.events ≠ []) {h : Handshake}
    {e : Event} (hparse : Event.ofPdu r.version e.json = .ok e) {user : String} {now : Int}
    (hfields : e.fields = r.memberFields user h.membership now)
    (hnew : r.contains e.id = false) :
    p.acceptMembership h r.roomId e.id (some e.json) = .ok (⟨e, r.currentState,
      r.authChain (authorisingIds r.currentState e), r.strippedState⟩, p.holdRoom (r.append e)) := by
  obtain ⟨hroom, hprev, hdepth, hsender, -, hmember⟩ := Room.memberFields_spec hfields
  -- the event stands on all forward extremities, of which one is as deep as the room
  exact acceptMembership_ok hheld hparse hroom hmember hsender
    (hr.addEvent_tips hlt hne hroom hnew hprev hdepth)

end Peer

end Homeserver
