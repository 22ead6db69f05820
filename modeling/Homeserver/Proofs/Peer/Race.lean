/-
Racing memberships. What a peer proposes stands on all forward extremities of the room, and whatever
is appended meanwhile takes the place of one of them for good. So a membership that was made of a
proposal is accepted iff nothing was recorded in the room since, and of all that were made on the
same contents the first one that is sent wins.
-/
import Homeserver.Proofs.Peer.Service

namespace Homeserver

theorem Refusal.le_status (why : Refusal) : 400 ≤ why.status := by
  unfold status
  split <;> decide

theorem Refusal.status_ne_ok (why : Refusal) : why.status ≠ 200 := fun hstatus =>
  absurd (hstatus ▸ why.le_status : 400 ≤ 200) (by decide)

theorem PeerAnswer.status_ofRefusal_ne (why : Refusal) : (ofRefusal why).status ≠ 200 := by
  unfold ofRefusal
  split
  · decide
  · exact Refusal.status_ne_ok why

namespace Peer

/-! ## Answers with success -/

/-- A request that may change the peer is answered with success only if it is served. -/
theorem ok_of_answerChange {α : Type} {p : Peer} {result : Except Refusal (α × Peer)}
    {body : α → Json} (h : (p.answerChange result body).1.status = 200) :
    ∃ a next, result = .ok (a, next) ∧ p.answerChange result body = (.served (body a), next) := by
  cases result with
  | error why => exact absurd h (PeerAnswer.status_ofRefusal_ne why)
  | ok made => exact ⟨made.1, made.2, rfl, rfl⟩

/-- So is one that only looks something up. -/
theorem ok_of_answerLookup {p : Peer} {result : Except Refusal Json}
    (h : (p.answerLookup result).1.status = 200) :
    ∃ v, result = .ok v ∧ p.answerLookup result = (.served v, p) := by
  cases result with
  | error why => exact absurd h (PeerAnswer.status_ofRefusal_ne why)
  | ok v => exact ⟨v, rfl, rfl⟩

theorem proposed_of_status {routes : Routes} {p : Peer} {q : Inbound} {h : Handshake}
    {roomId user : String} (hmake : Reaches routes q (.propose h) [roomId, user])
    (hstatus : (p.receive routes q).1.status = 200) :
    ∃ v, p.proposeMembership h q.time roomId user q.query = .ok v ∧
      p.receive routes q = (.served v, p) := by
  rw [hmake.receive_eq] at hstatus ⊢
  exact ok_of_answerLookup hstatus

theorem accepted_of_status {routes : Routes} {p : Peer} {q : Inbound} {h : Handshake}
    {roomId eventId : String} (hpath : Reaches routes q (.accept h) [roomId, eventId])
    (hstatus : (p.receive routes q).1.status = 200) :
    ∃ a next, p.acceptMembership h roomId eventId q.body = .ok (a, next) ∧
      p.receive routes q = (.served (p.membershipAnswer h a), next) := by
  rw [hpath.receive_eq] at hstatus ⊢
  exact ok_of_answerChange hstatus

/-! ## Memberships that are made of proposals -/

/-- The event that a server makes of an answer with a proposed one: under the version that the
answer names, with a name and a time of its own, and signed. -/
def SignedFrom (body : Json) (s : Identity) (origin : String) (now : Int) (e : Event) : Prop :=
  ∃ version proto u, body.get? "room_version" = some (.str (RoomVersion.id version)) ∧
    body.get? "event" = some proto ∧ UnsignedEvent.ofProto version proto origin now = .ok u ∧
    e = s.signEvent u

/-- A membership that some server made of what a peer served it while the room was as it is here.
The room does not have it yet, and its time and depth are safe integers. -/
inductive MadeOn (routes : Routes) (r : Room) (h : Handshake) (e : Event) : Prop
  | intro (p : Peer) (make : Inbound) (user : String) (body : Json) (s : Identity) (origin : String)
      (now : Int) (hheld : p.room? r.roomId = some r)
      (hmake : Reaches routes make (.propose h) [r.roomId, user])
      (hserved : (p.receive routes make).1 = .served body) (hsigned : SignedFrom body s origin now e)
      (htime : Json.Safe e.timestamp) (hdepth : Json.Safe e.depth)
      (hnew : r.contains e.id = false)

/-- A request sends a signed membership under the path that is meant for it. -/
structure Submits (routes : Routes) (r : Room) (h : Handshake) (e : Event) (q : Inbound) : Prop where
  path : Reaches routes q (.accept h) [r.roomId, e.id]
  body : q.body = some e.json

section

variable {p : Peer} {r : Room} {h : Handshake} {user : String}

theorem get?_proposal (p : Peer) (r : Room) (h : Handshake) (time : Int) (user : String) :
    (p.proposal r h time user).get? "event" = some (.obj (Room.protoOf r.version
      (r.memberFields user h.membership time) p.serverName)) ∧
    (p.proposal r h time user).get? "room_version" = some (.str r.version.id) := by
  unfold proposal Json.object Json.get? Table.ofList
  simp only [List.foldl_cons, List.foldl_nil, Table.find?_insert]
  simp

/-- What is made of a proposal has the time of its signer and the depth behind the room, and if both
are safe integers it is the membership that the room itself would build. -/
theorem SignedFrom.eq_memberEvent {time now : Int} {s : Identity} {origin : String} {e : Event}
    (he : SignedFrom (p.proposal r h time user) s origin now e) :
    e.timestamp = now ∧ e.depth = r.depth + 1 ∧ (Json.Safe now → Json.Safe (r.depth + 1) →
      e = r.memberEvent s origin user h.membership now) := by
  obtain ⟨version, proto, u, hversion, hproto, hu, rfl⟩ := he
  obtain ⟨hevent, hroom⟩ := get?_proposal p r h time user
  rw [hroom, Option.some.injEq, Json.str.injEq] at hversion
  rw [hevent] at hproto
  cases RoomVersion.id_inj hversion
  cases hproto
  obtain ⟨htime, hdepth⟩ := fields_ofProto hu
  refine ⟨htime, hdepth _ ?_, fun hnow hsafe => ?_⟩
  · simp only [Room.find?_protoOf, Room.find?_commonMembers, String.reduceEq, and_false, if_false,
      if_true]
    rfl
  · rw [Room.ofProto_protoOf rfl hsafe hnow] at hu
    cases hu
    rfl

/-- A proposal can be signed at every time. -/
theorem signedFrom_memberEvent {now : Int} (hnow : Json.Safe now)
    (hdepth : Json.Safe (r.depth + 1)) (p : Peer) (h : Handshake) (time : Int) (user : String)
    (s : Identity) (origin : String) :
    SignedFrom (p.proposal r h time user) s origin now
      (r.memberEvent s origin user h.membership now) := by
  obtain ⟨hevent, hroom⟩ := get?_proposal p r h time user
  exact ⟨r.version, _, _, hroom, hevent,
    Room.ofProto_protoOf (f := r.memberFields user h.membership time) rfl hdepth hnow _ _ _, rfl⟩

/-- What is served on a settled room is its proposal. The room was created, and there is a depth for
what is proposed. -/
theorem served_proposal (hr : r.Settled) (hheld : p.room? r.roomId = some r) {routes : Routes}
    {make : Inbound} (hmake : Reaches routes make (.propose h) [r.roomId, user]) {body : Json}
    (hserved : (p.receive routes make).1 = .served body) :
    (r.stateEvent? .create).isSome = true ∧ r.depth < Room.maxDepth ∧
      body = p.proposal r h make.time user := by
  obtain ⟨v, hproposed, hanswer⟩ := proposed_of_status hmake (by rw [hserved]; rfl)
  rw [hanswer] at hserved
  cases hserved
  exact proposeMembership_cases hheld hr hproposed

end

/-! ## Submitting -/

section

variable {p : Peer} {r s : Room} {l : List Event} {h : Handshake} {e : Event} {routes : Routes}
  {q : Inbound}

/-- What a membership that was made on a room is to that room. -/
theorem MadeOn.spec (he : MadeOn routes r h e) (hr : r.Settled) : r.events ≠ [] ∧
    r.depth < Room.maxDepth ∧ r.contains e.id = false ∧ Event.ofPdu r.version e.json = .ok e ∧
    ∃ user now, e.fields = r.memberFields user h.membership now := by
  obtain ⟨p, make, user, body, s, origin, now, hheld, hmake, hserved, hsigned, htime, hdepth,
    hnew⟩ := he
  obtain ⟨hcreate, hlt, rfl⟩ := served_proposal hr hheld hmake hserved
  obtain ⟨hnow, hnext, hmade⟩ := hsigned.eq_memberEvent
  rw [hnow] at htime
  rw [hnext] at hdepth
  cases hmade htime hdepth
  exact ⟨Room.events_ne_nil_of_stateEvent? hcreate, hlt, hnew,
    Room.ofPdu_memberEvent htime hdepth s origin user h.membership, user, now, rfl⟩

/-- The room as it was accepts a membership that was made on it. -/
theorem receive_submitted (hr : r.Settled) (he : MadeOn routes r h e)
    (hq : Submits routes r h e q) (hheld : p.room? r.roomId = some r) :
    ∃ v, p.receive routes q = (.served v, p.holdRoom (r.append e)) := by
  obtain ⟨hne, hlt, hnew, hparse, user, now, hfields⟩ := he.spec hr
  rw [hq.path.receive_eq]
  show ∃ v, p.answerChange (p.acceptMembership h r.roomId e.id q.body) _ = _
  rw [hq.body, acceptMembership_tips hheld hr hlt hne hparse hfields hnew]
  exact ⟨_, rfl⟩

/-- A room to which something was appended refuses it. -/
theorem receive_stale (hr : r.Settled) (he : MadeOn routes r h e) (hq : Submits routes r h e q)
    (hheld : p.room? r.roomId = some s) (hs : r.Continues l s) (hl : l ≠ []) :
    ∃ why, p.receive routes q = (.refused why, p) := by
  obtain ⟨hne, -, -, hparse, user, now, hfields⟩ := he.spec hr
  obtain ⟨hroom, hparents, -, hsender, -, hmember⟩ := Room.memberFields_spec hfields
  -- one of the parents is no forward extremity any more
  obtain ⟨id, hid, hgone⟩ := hs.consumes hr.tips hne hl
  obtain ⟨cause, hadd⟩ := Room.addEvent_stale (hparents ▸ hid) hgone
  rw [hq.path.receive_eq]
  show ∃ why, p.answerChange (p.acceptMembership h r.roomId e.id q.body) _ = _
  rw [hq.body, acceptMembership_error hheld (hs.version_eq ▸ hparse) hroom hmember hsender hadd]
  exact ⟨_, rfl⟩

/-- A membership that was made on a room is accepted iff nothing was appended since, and otherwise it
changes nothing. -/
theorem receive_made (hr : r.Settled) (he : MadeOn routes r h e) (hq : Submits routes r h e q)
    (hheld : p.room? r.roomId = some s) (hs : r.Continues l s) :
    ((p.receive routes q).1.status = 200 ↔ l = []) ∧
      (l ≠ [] → 400 ≤ (p.receive routes q).1.status ∧ (p.receive routes q).2 = p) := by
  by_cases hl : l = []
  · subst hl
    cases hs.eq_of_nil
    obtain ⟨v, hreceive⟩ := receive_submitted hr he hq hheld
    rw [hreceive]
    exact ⟨⟨fun _ => rfl, fun _ => rfl⟩, fun hne => absurd rfl hne⟩
  · obtain ⟨why, hreceive⟩ := receive_stale hr he hq hheld hs hl
    have hstatus : (PeerAnswer.refused why).status ≠ 200 := why.status_ne_ok
    rw [hreceive]
    exact ⟨⟨fun hsame => absurd hsame hstatus, fun hnil => absurd hnil hl⟩,
      fun _ => ⟨why.le_status, rfl⟩⟩

/-! ## The first one wins -/

/-- The request submits a membership that was made on the room, and is answered with success. -/
def Wins (routes : Routes) (r : Room) (a : Inbound × PeerAnswer) : Prop :=
  ∃ h e, MadeOn routes r h e ∧ Submits routes r h e a.1 ∧ a.2.status = 200

theorem receiveAll_singleton (routes : Routes) (p : Peer) (q : Inbound) :
    (p.receiveAll routes [q]).2 = (p.receive routes q).2 := rfl

theorem zip_receiveAll (routes : Routes) (p : Peer) (q : Inbound) (requests : List Inbound) :
    (q :: requests).zip (p.receiveAll routes (q :: requests)).1 = (q, (p.receive routes q).1) ::
      requests.zip ((p.receive routes q).2.receiveAll routes requests).1 := rfl

/-- Once something was appended to the room, no request wins. -/
theorem not_wins (hr : r.Settled) (hheld : p.room? r.roomId = some s) (hs : r.Continues l s)
    (hl : l ≠ []) (requests : List Inbound) :
    ∀ a ∈ requests.zip (p.receiveAll routes requests).1, ¬ Wins routes r a := by
  induction requests generalizing p s l with
  | nil => simp
  | cons q requests ih =>
    rw [zip_receiveAll, List.forall_mem_cons]
    constructor
    · rintro ⟨h, e, he, hq, hstatus⟩
      exact hl ((receive_made hr he hq hheld hs).1.mp hstatus)
    · obtain ⟨t, ht, l', hl'⟩ := (receive_continues routes p q).exists_room? hheld
      exact ih ht (hs.trans hl') (List.append_ne_nil_of_left_ne_nil hl l')

/-- A request that wins appends. -/
theorem Wins.appends (hr : r.Settled) (hheld : p.room? r.roomId = some r)
    (hwins : Wins routes r (q, (p.receive routes q).1)) :
    (p.receive routes q).2.room? r.roomId ≠ some r := by
  obtain ⟨h, e, he, hq, -⟩ := hwins
  obtain ⟨v, hreceive⟩ := receive_submitted hr he hq hheld
  rw [hreceive, room?_holdRoom, if_pos (Room.roomId_append r e)]
  intro hsame
  have hnew := (he.spec hr).2.2.1
  rw [← Option.some.inj hsame, (Room.contains_append r e e.id).mpr (.inl rfl)] at hnew
  cases hnew

/-- Of all requests of a run at most one wins. -/
theorem wins_pairwise (hr : r.Settled) (hheld : p.room? r.roomId = some r)
    (requests : List Inbound) :
    (requests.zip (p.receiveAll routes requests).1).Pairwise fun a b =>
      Wins routes r a → ¬ Wins routes r b := by
  induction requests generalizing p with
  | nil => exact List.Pairwise.nil
  | cons q requests ih =>
    rw [zip_receiveAll, List.pairwise_cons]
    obtain ⟨s, hs, l, hl⟩ := (receive_continues routes p q).exists_room? hheld
    by_cases hnil : l = []
    · subst hnil
      cases hl.eq_of_nil
      exact ⟨fun _ _ hwins => absurd hs (hwins.appends hr hheld), ih hs⟩
    · have hnone : ∀ b ∈ requests.zip ((p.receive routes q).2.receiveAll routes requests).1,
          ¬ Wins routes r b := not_wins hr hs hl hnil requests
      exact ⟨fun b hb _ => hnone b hb, List.pairwise_of_forall_mem_list fun a _ b hb _ => hnone b hb⟩

end

/-- Racing memberships. A peer holds a room that grew from an empty one, and has answered any
requests. What it then proposes on the room can be signed at every time. A membership that was made
of a proposal on the room as it is now may be sent after any further requests: it is accepted iff
nothing was recorded in the room since, and otherwise it is refused and leaves the peer as it is. So
in every run of requests at most one of the memberships that were made on the room as it is now is
accepted, whoever made them. -/
theorem first_to_send {p : Peer} {r : Room}
    (hgrown : ∃ roomId version calls, r = (Room.new roomId version).afterAll calls)
    (hheld : p.room? r.roomId = some r) (routes : Routes) (before : List Inbound) :
    let atMake := (p.receiveAll routes before).2
    ∃ made, atMake.room? r.roomId = some made ∧ made.roomId = r.roomId ∧
      (∀ h make user body, Reaches routes make (.propose h) [made.roomId, user] →
        (atMake.receive routes make).1 = .served body → ∀ s origin now, Json.Safe now →
          Json.Safe (made.depth + 1) → ∃ e, SignedFrom body s origin now e ∧ e.timestamp = now ∧
            e.depth = made.depth + 1) ∧
      (∀ h e send between, MadeOn routes made h e → Submits routes made h e send →
        let atSend := (atMake.receiveAll routes between).2
        ∃ found l, atSend.room? r.roomId = some found ∧ found.events = made.events ++ l ∧
          ((atSend.receive routes send).1.status = 200 ↔ l = []) ∧
          (l ≠ [] → 400 ≤ (atSend.receive routes send).1.status ∧
            (atSend.receive routes send).2 = atSend)) ∧
      ∀ requests : List Inbound, (requests.zip (atMake.receiveAll routes requests).1).Pairwise fun a b =>
        Wins routes made a → ¬ Wins routes made b := by
  intro atMake
  obtain ⟨roomId, version, calls, hrun⟩ := hgrown
  have hr : r.Settled := hrun ▸ Room.settled_afterAll roomId version calls
  obtain ⟨made, hmade, before', hbefore⟩ := (receiveAll_continues routes p before).exists_room? hheld
  have hsettled : made.Settled := (hbefore.grows hr.tips).settled hr
  have hid : made.roomId = r.roomId := hbefore.roomId_eq
  have hheldNow : atMake.room? made.roomId = some made := hid ▸ hmade
  refine ⟨made, hmade, hid, ?_, ?_, fun requests => wins_pairwise hsettled hheldNow requests⟩
  · intro h make user body hmake hserved s origin now hnow hdepth
    obtain ⟨-, -, rfl⟩ := served_proposal hsettled hheldNow hmake hserved
    have hsigned := signedFrom_memberEvent hnow hdepth atMake h make.time user s origin
    obtain ⟨htime, hnext, -⟩ := hsigned.eq_memberEvent
    exact ⟨_, hsigned, htime, hnext⟩
  · intro h e send between he hq atSend
    obtain ⟨found, hfound, l, hl⟩ :=
      (receiveAll_continues routes atMake between).exists_room? hheldNow
    exact ⟨found, l, hid ▸ hfound, (hl.grows hsettled.tips).events_eq,
      receive_made hsettled he hq hfound hl⟩

/-- The first join is made of what the host proposes on the created room. -/
theorem madeOn_firstJoin : MadeOn (Routes.ofBundles [.join]) createdRoom .join firstJoin := by
  have htime : Json.Safe 2 := ⟨by decide, by decide⟩
  have hdepth : Json.Safe (createdRoom.depth + 1) := htime
  have hmaking := delivered_makeJoin (r := createdRoom) toRoot_makeJoin 1
  have hserved := receive_makeJoin room?_host settled_createdRoom (by decide) stateEvent?_createdRoom
    hmaking
  exact .intro _ making "@v:b" _ guest.identity guest.serverName 2 room?_host hmaking.reaches
    (congrArg Prod.fst hserved) (signedFrom_memberEvent htime hdepth _ .join 1 "@v:b" _ _) htime
    hdepth contains_firstJoin

theorem submits_firstJoin :
    Submits (Routes.ofBundles [.join]) createdRoom .join firstJoin sending where
  path := (delivered_sendJoin toRoot_sendJoin 3).reaches
  body := rfl

/-- The first join is accepted, and refused when it is sent once more. -/
theorem first_to_send_firstJoin :
    let routes := Routes.ofBundles [.join]
    ((host.holdRoom createdRoom).receive routes sending).1.status = 200 ∧
      400 ≤ (((host.holdRoom createdRoom).receiveAll routes [sending]).2.receive
        routes sending).1.status := by
  intro routes
  obtain ⟨made, hmade, -, -, hsent, -⟩ :=
    first_to_send ⟨_, _, _, createdRoom_of_run⟩ room?_host routes []
  cases room?_host.symm.trans hmade
  obtain ⟨found, l, hfound, hevents, hstatus, -⟩ :=
    hsent .join firstJoin sending [] madeOn_firstJoin submits_firstJoin
  cases room?_host.symm.trans hfound
  have hfirst := hstatus.mpr (List.self_eq_append_right.mp hevents)
  refine ⟨hfirst, ?_⟩
  obtain ⟨found, l, hfound, hevents, -, hstale⟩ :=
    hsent .join firstJoin sending [sending] madeOn_firstJoin submits_firstJoin
  refine (hstale ?_).1
  rintro rfl
  obtain ⟨v, hreceive⟩ := receive_submitted settled_createdRoom madeOn_firstJoin
    submits_firstJoin room?_host
  have hafter : (((host.holdRoom createdRoom).receiveAll routes [sending]).2.room?
      createdRoom.roomId) = some (createdRoom.append firstJoin) := by
    rw [receiveAll_singleton, hreceive, room?_holdRoom, if_pos (Room.roomId_append _ _)]
  cases hafter.symm.trans hfound
  rw [Room.events_append contains_firstJoin] at hevents
  exact absurd (List.append_cancel_left hevents) (List.cons_ne_nil _ _)

end Peer

end Homeserver
