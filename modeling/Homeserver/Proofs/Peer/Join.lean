/-
Joins between two peers of which one holds the room. If the requests and the answers are carried as
they were sent, the joining peer ends with a room that agrees with the room of the other one: the
one appended the join, the other seeded a room from the state, and both have the same state, the
join as their only forward extremity, and the same depth.
-/
import Homeserver.Peer.Join
import Homeserver.Proofs.Peer.Exchange
import Homeserver.Proofs.Peer.Membership
import Homeserver.Proofs.Room.AuthChain
import Homeserver.Proofs.Room.RemoteJoin

namespace Homeserver

namespace Peer

/-! ## The side of the room -/

/-- A request for a proposal that is delivered is answered with one, and changes nothing. -/
theorem receive_makeJoin {p : Peer} {r : Room} (hheld : p.room? r.roomId = some r)
    (hr : r.Settled) (hlt : r.depth < Room.maxDepth)
    (hcreate : (r.stateEvent? .create).isSome = true) {routes : Routes}
    {destination user : String} {q : Inbound} (h : Delivered (JoinProposal.request destination r.roomId user) routes .makeJoin q) :
    p.receive routes q = (.served (p.proposal r .join q.time user), p) := by
  rw [h.reaches.receive_eq]
  show p.answerLookup (p.proposeMembership .join q.time r.roomId user q.query) = _
  rw [proposeMembership_ok hheld hr hlt hcreate rfl (isOffered_all h.query r.version)]
  rfl

/-- What a peer answers to a join that it accepted. -/
def joinAnswer (p : Peer) (r : Room) (join : Event) : Json :=
  p.membershipAnswer .join ⟨join, r.currentState,
    r.authChain (authorisingIds r.currentState join), r.strippedState⟩

/-- A join on all forward extremities of the room that is delivered is appended to it. -/
theorem receive_sendJoin {p : Peer} {r : Room} (hheld : p.room? r.roomId = some r)
    (hr : r.Settled) (hlt : r.depth < Room.maxDepth) (hne : r.events ≠ []) {join : Event}
    (hparse : Event.ofPdu r.version join.json = .ok join) {user : String} {now : Int}
    (hfields : join.fields = r.memberFields user "join" now)
    (hnew : r.contains join.id = false) {routes : Routes} {destination : String} {q : Inbound}
    (h : Delivered (JoinAnswer.request destination join) routes .sendJoin q) :
    p.receive routes q = (.served (p.joinAnswer r join), p.holdRoom (r.append join)) := by
  obtain ⟨hroom, -⟩ := Room.memberFields_spec hfields
  rw [h.reaches.receive_eq]
  show p.answerChange (p.acceptMembership .join join.roomId join.id q.body) _ = _
  rw [h.body, hroom]
  show p.answerChange (p.acceptMembership .join r.roomId join.id (some join.json)) _ = _
  rw [acceptMembership_tips (h := .join) hheld hr hlt hne hparse hfields hnew]
  rfl

/-! ## The side of the user -/

/-- The join that a peer makes of a proposal on a room. -/
def joinFor (p : Peer) (r : Room) (user : String) (now : Int) : Event :=
  p.identity.signEvent ⟨r.version, r.memberFields user "join" now,
    Room.protoOf r.version (r.memberFields user "join" now) p.serverName⟩

/-- A join is accepted from its JSON as it is. -/
theorem ofPdu_joinFor {r : Room} {now : Int} (hnow : Json.Safe now)
    (hdepth : Json.Safe (r.depth + 1)) (p : Peer) (user : String) :
    Event.ofPdu r.version (p.joinFor r user now).json = .ok (p.joinFor r user now) :=
  Room.ofPdu_memberEvent hnow hdepth p.identity p.serverName user "join"

/-- A proposal that is read is signed, at the peer's own time, as the join that it proposes. -/
theorem prepareJoin_ok {p host : Peer} {r : Room} {destinations : Destinations} {now time : Int}
    {destination user : String} {reply : Reply} (hnow : Json.Safe now)
    (hdepth : Json.Safe (r.depth + 1))
    (hask : ((JoinProposal.request destination r.roomId user).ask p.identity destinations
      (some reply)).1 = .ok (host.proposal r .join time user)) :
    (p.prepareJoin destinations now destination r.roomId user (some reply)).1 =
      .ok (r.version, p.joinFor r user now) := by
  generalize hm : Room.protoOf r.version (r.memberFields user "join" time) host.serverName = m
  have hproto := Room.ofProto_protoOf (f := r.memberFields user "join" time) rfl hdepth hnow
    r.version host.serverName p.serverName
  have hread : JoinProposal.read destination (host.proposal r .join time user) =
      .ok ⟨r.version, .obj m⟩ := by
    unfold JoinProposal.read Peer.proposal
    simp only [Handshake.membership, hm, Json.get?, Json.object, Table.ofList, List.foldl_cons,
      List.foldl_nil, Table.find?_insert]
    simp [Json.string?, RoomVersion.ofId_id, bind, Except.bind, Except.mapError, pure, Except.pure]
  rw [hm] at hproto
  unfold prepareJoin
  simp only [hask, bind, Except.bind, hread, JoinProposal.sign]
  rw [show UnsignedEvent.ofProto r.version (.obj m) p.identity.serverName now = _ from hproto]
  rfl

theorem get?_membershipAnswer (p : Peer) (a : AcceptedMembership) :
    (p.membershipAnswer .join a).get? "event" = some a.event.json ∧
    (p.membershipAnswer .join a).get? "state" = some (.arr (a.state.map Event.json)) ∧
    (p.membershipAnswer .join a).get? "auth_chain" = some (.arr (a.authChain.map Event.json)) := by
  unfold membershipAnswer Json.object Json.get? Table.ofList
  simp only [List.foldl_cons, List.foldl_nil, Table.find?_insert]
  simp

theorem read_membershipAnswer (p : Peer) (destination : String) (a : AcceptedMembership) :
    JoinAnswer.read destination (p.membershipAnswer .join a) =
      .ok ⟨a.state.map Event.json, a.authChain.map Event.json, some a.event.json⟩ := by
  obtain ⟨hevent, hstate, hchain⟩ := get?_membershipAnswer p a
  unfold JoinAnswer.read
  simp [hevent, hstate, hchain, Json.array?, pure, Except.pure]

/-- What a joining peer makes of an answer with the current state of a room and with events of it:
a room with that state, in which the event that is given back set its place. -/
theorem completeJoin_current {p host : Peer} {r : Room} (hr : r.Settled)
    (hcreate : (r.stateEvent? .create).isSome = true)
    (hevents : ∀ e ∈ r.events, Event.ofPdu r.version e.json = .ok e) {chain : List Event}
    (hchain : ∀ e ∈ chain, e ∈ r.events) {given join : Event}
    (hparse : Event.ofPdu r.version given.json = .ok given) (hroom : given.roomId = r.roomId)
    (hdepth : r.depth ≤ given.depth) {stripped : List Json} {destinations : Destinations}
    {destination : String} {reply : Reply}
    (hask : ((JoinAnswer.request destination join).ask p.identity destinations (some reply)).1 =
      .ok (host.membershipAnswer .join ⟨given, r.currentState, chain, stripped⟩)) :
    ∃ joined, (p.completeJoin destinations destination r.roomId r.version join (some reply)).1 =
        .ok (joined, p.holdRoom joined) ∧
      joined.roomId = r.roomId ∧ joined.state = (r.setState given).state ∧
      joined.forwardExtremities = [given.id] ∧ joined.depth = given.depth ∧
      joined.event? given.id = some given := by
  obtain ⟨joined, hjoined, hspec⟩ := hr.ofRemoteJoin_spec hcreate hchain hroom hdepth
  -- all that is sent is recorded, so it can be read back
  have hstate : (r.currentState.map Event.json).mapM (Event.ofPdu r.version) =
      .ok r.currentState :=
    mapM_map_ok fun e he => hevents e (Room.mem_currentState he)
  have hauth : (chain.map Event.json).mapM (Event.ofPdu r.version) = .ok chain :=
    mapM_map_ok fun e he => hevents e (hchain e he)
  refine ⟨joined, ?_, hspec⟩
  unfold completeJoin
  simp only [hask, bind, Except.bind, read_membershipAnswer, JoinAnswer.room, hstate, hauth, hparse,
    hjoined]
  rfl

/-- What a joining peer makes of the answer to its join: a room with the state of the other server's
room, in which the join set its place. -/
theorem completeJoin_ok {p host : Peer} {r : Room} (hr : r.Settled)
    (hcreate : (r.stateEvent? .create).isSome = true)
    (hevents : ∀ e ∈ r.events, Event.ofPdu r.version e.json = .ok e) {join : Event}
    (hparse : Event.ofPdu r.version join.json = .ok join) (hroom : join.roomId = r.roomId)
    (hdepth : r.depth ≤ join.depth) {destinations : Destinations} {destination : String}
    {reply : Reply}
    (hask : ((JoinAnswer.request destination join).ask p.identity destinations (some reply)).1 =
      .ok (host.joinAnswer r join)) :
    ∃ joined, (p.completeJoin destinations destination r.roomId r.version join (some reply)).1 =
        .ok (joined, p.holdRoom joined) ∧
      joined.roomId = r.roomId ∧ joined.state = (r.setState join).state ∧
      joined.forwardExtremities = [join.id] ∧ joined.depth = join.depth ∧
      joined.event? join.id = some join :=
  completeJoin_current hr hcreate hevents (fun _ he => Room.mem_authChain he) hparse hroom hdepth
    hask

theorem join_of_prepareJoin {p : Peer} {destinations : Destinations} {now : Int}
    {destination roomId user : String} {proposed accepted : Reply} {version : RoomVersion}
    {join : Event} (h : (p.prepareJoin destinations now destination roomId user
      (some proposed)).1 = .ok (version, join)) :
    (p.join destinations now destination roomId user [proposed, accepted]).1 =
      (p.completeJoin destinations destination roomId version join (some accepted)).1 := by
  unfold Peer.join
  rw [List.getElem?_cons_zero, List.getElem?_cons_succ, List.getElem?_cons_zero]
  cases hp : p.prepareJoin destinations now destination roomId user (some proposed) with
  | mk made asked =>
    rw [hp] at h
    cases h
    rfl

/-! ## Texts of joins -/

theorem readable_memberFields {r : Room} {time : Int} (htime : Json.Safe time)
    (hdepth : Json.Safe (r.depth + 1)) (version : RoomVersion) (user membership origin : String) :
    (Json.obj (Room.protoOf version (r.memberFields user membership time) origin)).Readable 2 := by
  have hcontent : (r.memberFields user membership time).content.Readable 1 :=
    Json.readable_object [("membership", .str membership)] (by simp)
  exact Room.readable_protoOf hcontent (Json.readable_of_safe hdepth _)
    (Json.readable_of_safe htime _) version origin

theorem readable_joinFor {r : Room} {now : Int} (hnow : Json.Safe now)
    (hdepth : Json.Safe (r.depth + 1)) (p : Peer) (user : String) :
    (p.joinFor r user now).json.Readable 3 := by
  have hproto := readable_memberFields hnow hdepth r.version user "join" p.serverName
  exact Identity.readable_signEvent
    (u := ⟨r.version, _, Room.protoOf r.version (r.memberFields user "join" now) p.serverName⟩)
    (hproto.mono (by decide)) p.identity

theorem readable_proposal {r : Room} {time : Int} (htime : Json.Safe time)
    (hdepth : Json.Safe (r.depth + 1)) (p : Peer) (h : Handshake) (user : String) :
    (p.proposal r h time user).Readable 3 := by
  refine Json.readable_object _ ?_
  simp [readable_memberFields htime hdepth]

theorem readable_membershipAnswer {r : Room} {depth : Nat}
    (hevents : ∀ e ∈ r.events, e.json.Readable depth) {chain : List Event}
    (hchain : ∀ e ∈ chain, e ∈ r.events) {given : Event} (hgiven : given.json.Readable depth)
    (stripped : List Json) (p : Peer) :
    (p.membershipAnswer .join ⟨given, r.currentState, chain, stripped⟩).Readable (depth + 2) := by
  refine Json.readable_object _ ?_
  have hstate : ∀ v ∈ r.currentState.map Event.json, v.Readable depth :=
    List.forall_mem_map.mpr fun e he => hevents e (Room.mem_currentState he)
  have hchain : ∀ v ∈ chain.map Event.json, v.Readable depth :=
    List.forall_mem_map.mpr fun e he => hevents e (hchain e he)
  simp [Json.readable_arr.mpr hstate, Json.readable_arr.mpr hchain, hgiven.mono (Nat.le_succ depth)]

theorem readable_joinAnswer {r : Room} {depth : Nat} (hevents : ∀ e ∈ r.events, e.json.Readable depth)
    {join : Event} (hjoin : join.json.Readable depth) (p : Peer) :
    (p.joinAnswer r join).Readable (depth + 2) :=
  readable_membershipAnswer hevents (fun _ he => Room.mem_authChain he) hjoin _ p

/-! ## Joins to the root of a server -/

section

variable {s : Identity} {destinations : Destinations} {root : Url} {p : Peer} {r : Room}
  {destination user : String}

theorem delivered_makeJoin (hroot : (JoinProposal.request destination r.roomId user).ToRoot s
    destinations root) (time : Int) :
    Delivered (JoinProposal.request destination r.roomId user) (Routes.ofBundles [.join]) .makeJoin
      ⟨time, "GET", .ofText ((JoinProposal.request destination r.roomId user).urlAt root).target,
        none⟩ := by
  refine hroot.delivered ?_ rfl time
  have hwords : ∀ special, ["_matrix", "federation", "v1", "make_join"].map
      (Url.encodeSegment special) = Route.makeJoin.path.words.map String.toList := by decide +kernel
  have hserves : Route.makeJoin.serves "GET" = true := by decide
  exact Routes.find?_of_serves hserves (hroot.match?_ok (hwords _) rfl) [.sendJoin]

theorem delivered_sendJoin {join : Event} (hroot : (JoinAnswer.request destination join).ToRoot s
    destinations root) (time : Int) :
    Delivered (JoinAnswer.request destination join) (Routes.ofBundles [.join]) .sendJoin
      ⟨time, "PUT", .ofText ((JoinAnswer.request destination join).urlAt root).target,
        some join.json⟩ := by
  refine hroot.delivered ?_ rfl time
  have hwords : ∀ special, ["_matrix", "federation", "v2", "send_join"].map
      (Url.encodeSegment special) = Route.sendJoin.path.words.map String.toList := by decide +kernel
  have hother : Route.makeJoin.serves "PUT" = false := by decide
  have hserves : Route.sendJoin.serves "PUT" = true := by decide
  exact (Routes.find?_of_not_serves hother _ [.sendJoin]).trans
    (Routes.find?_of_serves hserves (hroot.match?_ok (hwords _) rfl) [])

/-- HTTP carries a request for a proposal to the root of a server that holds the room. -/
theorem carried_makeJoin (hheld : p.room? r.roomId = some r) (hr : r.Settled)
    (hcreate : (r.stateEvent? .create).isSome = true)
    (hroot : (JoinProposal.request destination r.roomId user).ToRoot s destinations root)
    {q : Inbound} (htime : Json.Safe q.time) (hdepth : Json.Safe (r.depth + 1))
    (hq : Delivered (JoinProposal.request destination r.roomId user) (Routes.ofBundles [.join])
      .makeJoin q) :
    Carried (JoinProposal.request destination r.roomId user) s destinations
      (Routes.ofBundles [.join]) .makeJoin p q
      ((p.receive (Routes.ofBundles [.join]) q).1.reply "GET") := by
  refine hroot.carried hq fun v hv => ?_
  rw [receive_makeJoin hheld hr (Room.lt_maxDepth_of_safe hdepth) hcreate hq] at hv
  cases hv
  exact (readable_proposal htime hdepth p .join user).mono (by decide)

/-- HTTP carries a join to the root of a server that holds the room, if the events of the room can
be read back. -/
theorem carried_sendJoin (hheld : p.room? r.roomId = some r) (hr : r.Settled)
    (hlt : r.depth < Room.maxDepth) (hne : r.events ≠ [])
    (hevents : ∀ e ∈ r.events, e.json.Readable 125) {join : Event}
    (hparse : Event.ofPdu r.version join.json = .ok join) (hjoin : join.json.Readable 125)
    {now : Int} (hfields : join.fields = r.memberFields user "join" now)
    (hnew : r.contains join.id = false)
    (hroot : (JoinAnswer.request destination join).ToRoot s destinations root) {q : Inbound}
    (hq : Delivered (JoinAnswer.request destination join) (Routes.ofBundles [.join]) .sendJoin q) :
    Carried (JoinAnswer.request destination join) s destinations (Routes.ofBundles [.join])
      .sendJoin p q ((p.receive (Routes.ofBundles [.join]) q).1.reply "PUT") := by
  refine hroot.carried hq fun v hv => ?_
  rw [receive_sendJoin hheld hr hlt hne hparse hfields hnew hq] at hv
  cases hv
  exact readable_joinAnswer hevents hjoin p

end

/-! ## Agreement -/

theorem membership_of_setState {r s : Room} {join : Event} {user membership : String} {now : Int}
    (hfields : join.fields = r.memberFields user membership now)
    (hstate : s.state = (r.setState join).state) (hheld : s.event? join.id = some join) :
    s.membership user = some membership := by
  obtain ⟨-, -, -, -, hplace, hmember⟩ := Room.memberFields_spec hfields
  have hfind : Table.find? (.member user) s.state = some join.id := by
    rw [hstate, Room.state_setState, hplace]
    exact Table.find?_insert_self _ _ _
  unfold Room.membership Room.stateEvent?
  rw [hfind, Option.bind_some, hheld, Option.bind_some, hmember]

/-- Joining agrees on both sides. A peer holds a room that grew from an empty one, was created, and
consists of events that are accepted as they are. When another peer joins it, with nothing between
the two requests, by an event that is new to the room and whose time and depth are safe integers,
and HTTP carries both exchanges, then the join succeeds, and the two rooms have the same state, the
join as their only forward extremity, the same depth, and the user joined in both. -/
theorem join_agrees {joiner resident : Peer} {r : Room} {destinations : Destinations}
    {routes : Routes} {destination user : String} {now : Int} {making sending : Inbound}
    {proposed accepted : Reply}
    (hgrown : ∃ roomId version calls, r = (Room.new roomId version).afterAll calls)
    (hheld : resident.room? r.roomId = some r)
    (hcreate : (r.stateEvent? .create).isSome = true)
    (hevents : ∀ e ∈ r.events, Event.ofPdu r.version e.json = .ok e)
    (hnow : Json.Safe now) (hdepth : Json.Safe (r.depth + 1))
    (hmake : Carried (JoinProposal.request destination r.roomId user) joiner.identity destinations
      routes .makeJoin resident making proposed)
    (hnew : r.contains (joiner.joinFor r user now).id = false)
    (hsend : Carried (JoinAnswer.request destination (joiner.joinFor r user now)) joiner.identity
      destinations routes .sendJoin (resident.receive routes making).2 sending accepted) :
    ∃ join joined held,
      (joiner.prepareJoin destinations now destination r.roomId user (some proposed)).1 =
        .ok (r.version, join) ∧
      join = joiner.joinFor r user now ∧ join.timestamp = now ∧ join.depth = r.depth + 1 ∧
      (joiner.join destinations now destination r.roomId user [proposed, accepted]).1 =
        .ok (joined, joiner.holdRoom joined) ∧
      (joiner.holdRoom joined).room? r.roomId = some joined ∧
      (resident.receiveAll routes [making, sending]).2.room? r.roomId = some held ∧
      held.state = joined.state ∧
      held.forwardExtremities = [join.id] ∧ joined.forwardExtremities = [join.id] ∧
      held.depth = joined.depth ∧
      held.membership user = some "join" ∧ joined.membership user = some "join" := by
  obtain ⟨roomId, version, calls, hrun⟩ := hgrown
  have hr : r.Settled := hrun ▸ Room.settled_afterAll roomId version calls
  have hlt := Room.lt_maxDepth_of_safe hdepth
  have hne := Room.events_ne_nil_of_stateEvent? hcreate
  -- the proposal
  have hreceive := receive_makeJoin hheld hr hlt hcreate hmake.toDelivered
  have hprepare := prepareJoin_ok hnow hdepth
    (hmake.answer (resident.proposal r .join making.time user) (by rw [hreceive]))
  -- the join
  have hparse := ofPdu_joinFor hnow hdepth joiner user
  have hfields : (joiner.joinFor r user now).fields = r.memberFields user "join" now := rfl
  generalize joiner.joinFor r user now = join at *
  have hroom : join.roomId = r.roomId := by unfold Event.roomId; rw [hfields]; rfl
  have hjoinDepth : join.depth = r.depth + 1 := by unfold Event.depth; rw [hfields]; rfl
  have hprev : join.prevEvents = r.forwardExtremities := by
    unfold Event.prevEvents; rw [hfields]; rfl
  rw [hreceive] at hsend
  have hanswer := receive_sendJoin hheld hr hlt hne hparse hfields hnew hsend.toDelivered
  -- the room of the joining peer
  obtain ⟨joined, hcomplete, hid, hstate, htips, hjoinedDepth, hjoinHeld⟩ :=
    completeJoin_ok hr hcreate hevents hparse hroom (by omega)
      (hsend.answer _ (by rw [hanswer]))
  refine ⟨join, joined, r.append join, hprepare, rfl, ?_, hjoinDepth, ?_, ?_, ?_, ?_,
    Room.extremities_append_tips hprev, htips, ?_, ?_, ?_⟩
  · unfold Event.timestamp; rw [hfields]; rfl
  · rw [join_of_prepareJoin hprepare, hcomplete]
  · rw [room?_holdRoom, if_pos hid]
  · show ((resident.receive routes making).2.receive routes sending).2.room? r.roomId = _
    rw [hreceive, hanswer, room?_holdRoom, if_pos (Room.roomId_append r join)]
  · rw [Room.state_append, hstate]
  · rw [Room.depth_append, hjoinedDepth]; omega
  · exact membership_of_setState hfields (Room.state_append r join)
      (by rw [Room.event?_append, if_pos rfl])
  · exact membership_of_setState hfields hstate hjoinHeld

/-! ### A room that was only created -/

/-- The fields of an event that creates a room. -/
def creationFields : EventFields :=
  ⟨"!r:a", "@u:a", "m.room.create", some "", .obj [], [], [], 1, 1⟩

def creation : UnsignedEvent :=
  ⟨.default, creationFields, Room.protoOf .default creationFields "a"⟩

/-- A server that makes the room. -/
def host : Peer where
  identity := ⟨"a", "ed25519:1", ⟨List.replicate 32 1⟩⟩
  strict := false

/-- A server whose user joins. -/
def guest : Peer where
  identity := ⟨"b", "ed25519:1", ⟨List.replicate 32 2⟩⟩
  strict := false

/-- The room in which nothing happened since its creation. -/
def createdRoom : Room := (Room.new "!r:a" .default).append (host.identity.signEvent creation)

/-- The first join. -/
def firstJoin : Event := guest.joinFor createdRoom "@v:b" 2

/-- The id of the created room's only event. -/
def creationId : String := "$mKoPjIbTjEoUZiyTxvTq7okEVIf5N5kwlws8_u6mOjo"

-- each id is evaluated with the value of the content hash

theorem id_creation : (host.identity.signEvent creation).id = creationId := by
  have hhash : contentHash (.obj creation.proto) = "M2EBlCynRm6ijwhfsKiOTmT+MBND1pL3MD2C2GeFiKs" := by
    rw [contentHash_eq]
    decide +kernel
  have hsorted : Table.Sorted creation.proto := Room.sorted_protoOf .default creationFields "a"
  rw [Identity.id_signEvent hsorted _ hhash, eventId_eq]
  decide +kernel

/-- The fields of the first join. -/
def firstFields : EventFields :=
  ⟨"!r:a", "@v:b", "m.room.member", some "@v:b", .obj [("membership", .str "join")], [creationId],
    [creationId], 2, 2⟩

theorem memberFields_createdRoom : createdRoom.memberFields "@v:b" "join" 2 = firstFields := by
  unfold firstFields
  rw [← id_creation]
  rfl

theorem id_firstJoin : firstJoin.id = "$Ld5KColB_8z_5EfcbQb7QRytY8-YpXTVWlQvVBG1csA" := by
  have hhash : contentHash (.obj (Room.protoOf .default firstFields "b")) =
      "LTojxdN581NLSuBhm/o3Fti/43Th8CsI4wgnTOR2+f0" := by
    rw [contentHash_eq]
    decide +kernel
  have hid := Identity.id_signEvent (u := ⟨.default, firstFields, Room.protoOf .default firstFields "b"⟩)
    (Room.sorted_protoOf .default firstFields "b") guest.identity hhash
  rw [eventId_eq] at hid
  unfold firstJoin joinFor
  rw [memberFields_createdRoom]
  exact hid.trans (by decide +kernel)

theorem contains_firstJoin : createdRoom.contains firstJoin.id = false := by
  refine Bool.eq_false_iff.mpr fun h => ?_
  rcases (Room.contains_append _ _ _).mp h with h | h
  · rw [id_creation, id_firstJoin] at h
    exact absurd h (by decide)
  · cases h

theorem createdRoom_of_run : createdRoom =
    (Room.new "!r:a" .default).afterAll [.add (host.identity.signEvent creation)] := by
  have hadd : (Room.new "!r:a" .default).addEvent (host.identity.signEvent creation) =
      .ok createdRoom :=
    Room.addEvent_ok.mpr ⟨⟨rfl, rfl, fun _ => rfl, rfl, by decide⟩, fun _ h => (nomatch h), rfl⟩
  unfold Room.afterAll Room.after Room.call
  simp only [List.foldl_cons, List.foldl_nil, hadd]

theorem settled_createdRoom : createdRoom.Settled := by
  rw [createdRoom_of_run]
  exact Room.settled_afterAll _ _ _

theorem room?_host : (host.holdRoom createdRoom).room? createdRoom.roomId = some createdRoom := by
  rw [room?_holdRoom, if_pos rfl]

theorem events_createdRoom : createdRoom.events = [host.identity.signEvent creation] :=
  Room.events_append rfl

theorem id_of_mem_createdRoom {e : Event} (h : e ∈ createdRoom.events) : e.id = creationId := by
  rw [events_createdRoom, List.mem_singleton] at h
  rw [h, id_creation]

theorem createdRoom_events : ∀ e ∈ createdRoom.events,
    Event.ofPdu createdRoom.version e.json = .ok e ∧ e.json.Readable 3 := by
  have hone : Json.Safe creationFields.depth := ⟨by decide, by decide⟩
  have hproto : (Json.obj creation.proto).Readable 3 :=
    Room.readable_protoOf (Json.readable_obj.mpr ⟨Table.sorted_nil, fun _ h => (nomatch h)⟩)
      (Json.readable_of_safe hone _) (Json.readable_of_safe hone _) .default "a"
  have hcontent : creationFields.content.Strict := Json.strict_obj.mpr fun _ h => (nomatch h)
  intro e he
  rw [events_createdRoom, List.mem_singleton] at he
  subst he
  refine ⟨?_, Identity.readable_signEvent hproto _⟩
  exact (Room.ofPdu_signEvent_iff (u := creation) rfl rfl (fun _ => hcontent) _).mpr
    ⟨rfl, .of_safe hone _, .of_safe hone _⟩

theorem stateEvent?_createdRoom : (createdRoom.stateEvent? .create).isSome = true := by
  have hstate : createdRoom.state = [(.create, (host.identity.signEvent creation).id)] :=
    Room.state_append _ _
  unfold Room.stateEvent?
  rw [hstate, Table.find?, if_pos rfl, Option.bind_some]
  unfold createdRoom
  rw [Room.event?_append, if_pos rfl]
  rfl

/-- The root of the host. -/
def hostRoot : Url := ⟨"http".toList, some "a".toList, .segments [[]], none, none⟩

theorem toRoot_makeJoin : (JoinProposal.request "a" "!r:a" "@v:b").ToRoot guest.identity
    [("a", "http://a")] hostRoot where
  base := ⟨"http://a", by decide, by decide +kernel⟩
  web := by decide
  path := rfl
  noQuery := rfl
  names := by decide
  nonempty := by decide
  segments := by decide +kernel
  query := by decide
  method := by decide

theorem toRoot_sendJoin : (JoinAnswer.request "a" firstJoin).ToRoot guest.identity
    [("a", "http://a")] hostRoot where
  base := toRoot_makeJoin.base
  web := toRoot_makeJoin.web
  path := rfl
  noQuery := rfl
  names := toRoot_makeJoin.names
  nonempty := List.cons_ne_nil _ _
  segments := by
    have hwords : ∀ t ∈ ["_matrix", "federation", "v2", "send_join", "!r:a"],
        Url.IsSegment (Url.isSpecial hostRoot.scheme) t := by decide +kernel
    have hid := isSegment_eventId (Url.isSpecial hostRoot.scheme) createdRoom.version firstJoin.json
    have hall := List.forall_mem_append.mpr ⟨hwords, List.forall_mem_singleton.mpr hid⟩
    exact hall
  query := fun _ h => (nomatch h)
  method := by decide

/-- The requests of the guest as they reach the host. -/
def making : Inbound :=
  ⟨1, "GET", .ofText ((JoinProposal.request "a" "!r:a" "@v:b").urlAt hostRoot).target, none⟩

def sending : Inbound :=
  ⟨3, "PUT", .ofText ((JoinAnswer.request "a" firstJoin).urlAt hostRoot).target,
    some firstJoin.json⟩

/-- The guest joins the room that the host created. -/
theorem join_agrees_of_creation :
    let routes := Routes.ofBundles [.join]
    let resident := host.holdRoom createdRoom
    let proposed := (resident.receive routes making).1.reply "GET"
    let accepted := ((resident.receive routes making).2.receive routes sending).1.reply "PUT"
    ∃ joined held,
      (guest.join [("a", "http://a")] 2 "a" "!r:a" "@v:b" [proposed, accepted]).1 =
        .ok (joined, guest.holdRoom joined) ∧
      (resident.receiveAll routes [making, sending]).2.room? "!r:a" = some held ∧
      held.state = joined.state ∧ held.forwardExtremities = [firstJoin.id] ∧
      joined.forwardExtremities = [firstJoin.id] ∧ held.depth = joined.depth ∧
      joined.membership "@v:b" = some "join" := by
  intro routes resident proposed accepted
  have hr : createdRoom.Settled := createdRoom_of_run ▸ Room.settled_afterAll _ _ _
  have hheld : resident.room? createdRoom.roomId = some createdRoom := by
    rw [room?_holdRoom, if_pos rfl]
  have hnow : Json.Safe 2 := ⟨by decide, by decide⟩
  have hdepth : Json.Safe (createdRoom.depth + 1) := hnow
  have hparse := ofPdu_joinFor hnow hdepth guest "@v:b"
  have hmaking := delivered_makeJoin (r := createdRoom) toRoot_makeJoin 1
  have hsending := delivered_sendJoin toRoot_sendJoin 3
  have hlt := Room.lt_maxDepth_of_safe hdepth
  have hreceive := receive_makeJoin hheld hr hlt stateEvent?_createdRoom hmaking
  have hmake := carried_makeJoin hheld hr stateEvent?_createdRoom toRoot_makeJoin
    (q := making) ⟨by decide, by decide⟩ hdepth hmaking
  have hsend := carried_sendJoin hheld hr hlt
    (Room.events_ne_nil_of_stateEvent? stateEvent?_createdRoom)
    (fun e he => (createdRoom_events e he).2.mono (by decide)) hparse
    ((readable_joinFor hnow hdepth guest "@v:b").mono (by decide)) rfl contains_firstJoin
    toRoot_sendJoin hsending
  -- the request for a proposal leaves the host as it is
  have hsame : (resident.receive routes making).2 = resident := congrArg Prod.snd hreceive
  have hsend : Carried _ _ _ _ _ (resident.receive routes making).2 sending accepted :=
    hsame ▸ hsend
  obtain ⟨_, joined, held, -, rfl, -, -, hjoin, -, hafter, hstate, htips, hjoinedTips, hdepths, -,
    hmember⟩ := join_agrees ⟨_, _, _, createdRoom_of_run⟩ hheld stateEvent?_createdRoom
      (fun e he => (createdRoom_events e he).1) hnow hdepth hmake contains_firstJoin
      hsend
  exact ⟨joined, held, hjoin, hafter, hstate, htips, hjoinedTips, hdepths, hmember⟩

end Peer

end Homeserver
