/-
Knocks on rooms of every version. Only the half of the handshake that proposes a knock asks whether
the version of the room has them. The half that takes a knock asks that the event is one of its own
sender and fits the room; so a knock that no peer proposed is taken by a room of any version.
-/
import Homeserver.Proofs.Peer.Race

namespace Homeserver

/-- A request reaches one service, with one list of parameters. -/
theorem Reaches.unique {routes : Routes} {q : Inbound} {service service' : Endpoint}
    {parameters parameters' : List String} (h : Reaches routes q service parameters)
    (h' : Reaches routes q service' parameters') :
    service = service' ∧ parameters = parameters' := by
  obtain ⟨route, values, hfind, hdecode, rfl⟩ := h
  obtain ⟨route', values', hfind', hdecode', rfl⟩ := h'
  cases hfind.symm.trans hfind'
  cases hdecode.symm.trans hdecode'
  exact ⟨rfl, rfl⟩

namespace Peer

/-! ## Requests of the handshake -/

/-- A request asks for the proposal of a knock, or hands a knock in. -/
def IsKnock (routes : Routes) (q : Inbound) : Prop :=
  ∃ route values, routes.find? q.method q.path = some (route, values) ∧
    (route.endpoint = .propose .knock ∨ route.endpoint = .accept .knock)

theorem isKnock_of_reaches {routes : Routes} {q : Inbound} {service : Endpoint}
    {parameters : List String} (h : Reaches routes q service parameters)
    (hservice : service = .propose .knock ∨ service = .accept .knock) : IsKnock routes q := by
  obtain ⟨route, values, hfind, -, rfl⟩ := h
  exact ⟨route, values, hfind, hservice⟩

/-- A knock on the room was handed in and answered with success. -/
def Admitted (routes : Routes) (roomId : String) (a : Inbound × PeerAnswer) : Prop :=
  ∃ eventId, Reaches routes a.1 (.accept .knock) [roomId, eventId] ∧ a.2.status = 200

/-- A request hands in a knock of its own sender that fits on forward extremities of the room. The
version of the room counts only for how the event is read. -/
structure Knocks (routes : Routes) (roomId : String) (r : Room) (q : Inbound) (e : Event) : Prop
    extends r.Fits e where
  path : Reaches routes q (.accept .knock) [roomId, e.id]
  body : q.body = some e.json
  parsed : Event.ofPdu r.version e.json = .ok e
  named : e.roomId = roomId
  membership : e.membership = some "knock"
  sender : e.stateKey = some e.sender
  tips : ∀ p ∈ e.prevEvents, p ∈ r.forwardExtremities

section

variable {routes : Routes} {p next : Peer} {q : Inbound} {roomId eventId user : String} {r : Room}
  {e : Event}

/-! ## The half that proposes -/

/-- A membership is proposed only where the version of the room has it. -/
theorem isOf_of_proposed {h : Handshake} (hheld : p.room? roomId = some r)
    (hmake : Reaches routes q (.propose h) [roomId, user])
    (hserved : (p.receive routes q).1.status = 200) : h.isOf r.version = true := by
  obtain ⟨body, hproposed, -⟩ := proposed_of_status hmake hserved
  unfold proposeMembership at hproposed
  obtain ⟨s, hs, hproposed⟩ := bind_ok.mp hproposed
  cases hheld.symm.trans (knownRoom_ok.mp hs)
  obtain ⟨-, hproposed⟩ := unless_ok.mp hproposed
  obtain ⟨hof, -⟩ := unless_ok.mp hproposed
  simpa using hof

/-! ## The half that takes -/

/-- What is accepted as a knock fits the room that its path names, and is appended to it. -/
theorem knocks_of_accepted {a : AcceptedMembership}
    (hpath : Reaches routes q (.accept .knock) [roomId, eventId])
    (haccept : p.acceptMembership .knock roomId eventId q.body = .ok (a, next)) :
    ∃ r e, p.room? roomId = some r ∧ Knocks routes roomId r q e ∧ next = p.holdRoom (r.append e) := by
  obtain ⟨r, s, hheld, hread, hadd, rfl, -⟩ := acceptMembership_spec haccept
  obtain ⟨pdu, hbody, hparse, rfl, hroom, hmember, hsender⟩ := readMembership_ok hread
  obtain ⟨hfits, htips, rfl⟩ := Room.addEvent_ok.mp hadd
  obtain ⟨rfl, -⟩ := Event.json_of_ofPdu hparse
  exact ⟨r, a.event, hheld, ⟨hfits, hpath, hbody, hparse, hroom, hmember, hsender, htips⟩, rfl⟩

/-- A knock that fits the room is appended, whatever the version of the room. -/
theorem Knocks.receive_eq (hq : Knocks routes roomId r q e) (hheld : p.room? roomId = some r) :
    ∃ v, p.receive routes q = (.served v, p.holdRoom (r.append e)) := by
  have hid : roomId = r.roomId := hq.named.symm.trans hq.room
  have hadd : r.addEvent e = .ok (r.append e) := Room.addEvent_ok.mpr ⟨hq.toFits, hq.tips, rfl⟩
  rw [hq.path.receive_eq]
  show ∃ v, p.answerChange (p.acceptMembership .knock roomId e.id q.body) _ = _
  rw [hq.body, hid, acceptMembership_ok (h := .knock) (hid ▸ hheld) hq.parsed hq.room hq.membership
    hq.sender hadd]
  exact ⟨_, rfl⟩

theorem Knocks.room?_append (hq : Knocks routes roomId r q e) :
    (p.holdRoom (r.append e)).room? roomId = some (r.append e) := by
  rw [room?_holdRoom, if_pos]
  rw [Room.roomId_append, ← hq.room, hq.named]

theorem answer_propose (h : Handshake) (p : Peer) (q : Inbound) (parameters : List String) :
    ((Endpoint.propose h).answer p q parameters).2 = p := by
  rcases parameters with _ | ⟨id, _ | ⟨user, _ | ⟨other, rest⟩⟩⟩
  · rfl
  · rfl
  · exact answerLookup_snd _ _
  · rfl

theorem answer_accept (h : Handshake) (p : Peer) (q : Inbound) (parameters : List String) :
    ((Endpoint.accept h).answer p q parameters).2 = p ∨ ∃ id eventId a, parameters = [id, eventId] ∧
      p.acceptMembership h id eventId q.body =
        .ok (a, ((Endpoint.accept h).answer p q parameters).2) := by
  rcases parameters with _ | ⟨id, _ | ⟨eventId, _ | ⟨other, rest⟩⟩⟩
  · exact .inl rfl
  · exact .inl rfl
  · have hanswer : (Endpoint.accept h).answer p q [id, eventId] =
        p.answerChange (p.acceptMembership h id eventId q.body) (p.membershipAnswer h) := rfl
    rw [hanswer]
    cases haccept : p.acceptMembership h id eventId q.body with
    | error why => exact .inl rfl
    | ok made => exact .inr ⟨id, eventId, made.1, rfl, haccept⟩
  · exact .inl rfl

/-- A request of the handshake leaves the peer as it is, or it appends a knock to a held room. -/
theorem receive_knock_cases (hq : IsKnock routes q) : (p.receive routes q).2 = p ∨
    ∃ id r e, Knocks routes id r q e ∧ p.room? id = some r ∧
      (p.receive routes q).2 = p.holdRoom (r.append e) := by
  obtain ⟨route, values, hfind, hendpoint⟩ := hq
  cases hdecode : PathPattern.decode route.path.parameters values with
  | error name =>
    left
    unfold receive
    simp only [hfind, hdecode]
  | ok parameters =>
    have hreaches : Reaches routes q route.endpoint parameters :=
      ⟨route, values, hfind, hdecode, rfl⟩
    rw [hreaches.receive_eq]
    rcases hendpoint with hmake | hsend
    · rw [hmake]
      exact .inl (answer_propose .knock p q parameters)
    · rw [hsend] at hreaches ⊢
      rcases answer_accept .knock p q parameters with hsame | ⟨id, eventId, a, hparameters, haccept⟩
      · exact .inl hsame
      · rw [hparameters] at hreaches
        obtain ⟨r, e, hr, hknocks, hnext⟩ := knocks_of_accepted hreaches haccept
        exact .inr ⟨id, r, e, hknocks, hr, hnext⟩

/-- A room stays as it is under a request that hands in nothing that fits it. -/
theorem room?_of_no_knock (hq : IsKnock routes q) (hheld : p.room? roomId = some r)
    (hno : ∀ e, ¬ Knocks routes roomId r q e) : (p.receive routes q).2.room? roomId = some r := by
  rcases receive_knock_cases (p := p) hq with hsame | ⟨id, r', e, hknocks, hheld', hnext⟩
  · rw [hsame, hheld]
  · rw [hnext, room?_holdRoom, Room.roomId_append, ← hknocks.room, hknocks.named]
    split
    · rename_i hid
      subst hid
      cases hheld.symm.trans hheld'
      exact absurd hknocks (hno e)
    · exact hheld

/-- What is let in fits the room. -/
theorem knocks_of_admitted (hheld : p.room? roomId = some r)
    (h : Admitted routes roomId (q, (p.receive routes q).1)) : ∃ e, Knocks routes roomId r q e := by
  obtain ⟨eventId, hpath, hstatus⟩ := h
  obtain ⟨a, next, haccept, -⟩ := accepted_of_status hpath hstatus
  obtain ⟨r', e, hheld', hknocks, -⟩ := knocks_of_accepted hpath haccept
  cases hheld.symm.trans hheld'
  exact ⟨e, hknocks⟩

end

/-! ## Runs -/

section

variable {routes : Routes} {p : Peer} {requests : List Inbound} {roomId : String} {r : Room}

/-- In every run a membership is proposed only where the version of the room has it. -/
theorem isOf_of_run {h : Handshake} (hheld : p.room? roomId = some r) :
    ∀ a ∈ requests.zip (p.receiveAll routes requests).1, ∀ user,
      Reaches routes a.1 (.propose h) [roomId, user] → a.2.status = 200 →
        h.isOf r.version = true := by
  induction requests generalizing p r with
  | nil => simp
  | cons q requests ih =>
    rw [zip_receiveAll, List.forall_mem_cons]
    constructor
    · intro user hmake hstatus
      exact isOf_of_proposed hheld hmake hstatus
    · -- the version of a room never changes
      obtain ⟨s, hs, l, hl⟩ := (receive_continues routes p q).exists_room? hheld
      rw [← hl.version_eq]
      exact ih hs

/-- A run of requests for knocks and of knocks appends knocks to a room. It appends some iff one of
the requests is let in, and iff one of them fits the room as it was before the run. -/
theorem continues_of_knocks (hknocks : ∀ q ∈ requests, IsKnock routes q)
    (hheld : p.room? roomId = some r) :
    ∃ s taken, (p.receiveAll routes requests).2.room? roomId = some s ∧ r.Continues taken s ∧
      (∀ e ∈ taken, e.membership = some "knock" ∧ e.stateKey = some e.sender) ∧
      (taken ≠ [] ↔ ∃ a ∈ requests.zip (p.receiveAll routes requests).1, Admitted routes roomId a) ∧
      (taken ≠ [] ↔ ∃ q ∈ requests, ∃ e, Knocks routes roomId r q e) := by
  induction requests generalizing p r with
  | nil => exact ⟨r, [], hheld, .refl, by simp, by simp, by simp⟩
  | cons q requests ih =>
    obtain ⟨hq, hrequests⟩ := List.forall_mem_cons.mp hknocks
    rw [zip_receiveAll]
    by_cases hfit : ∃ e, Knocks routes roomId r q e
    · obtain ⟨e, he⟩ := hfit
      obtain ⟨v, hreceive⟩ := he.receive_eq hheld
      have hadd : r.addEvent e = .ok (r.append e) :=
        Room.addEvent_ok.mpr ⟨he.toFits, he.tips, rfl⟩
      obtain ⟨s, taken, hs, hcontinues, hmembers, -, -⟩ := ih hrequests (he.room?_append (p := p))
      have hadmitted : Admitted routes roomId (q, (p.receive routes q).1) := by
        refine ⟨e.id, he.path, ?_⟩
        rw [hreceive]
        rfl
      refine ⟨s, e :: taken, ?_, (Room.continues_of_addEvent hadd).trans hcontinues, ?_, ?_, ?_⟩
      · show ((p.receive routes q).2.receiveAll routes requests).2.room? roomId = some s
        rw [hreceive]
        exact hs
      · exact List.forall_mem_cons.mpr ⟨⟨he.membership, he.sender⟩, hmembers⟩
      · exact ⟨fun _ => ⟨_, List.mem_cons_self, hadmitted⟩, fun _ => List.cons_ne_nil _ _⟩
      · exact ⟨fun _ => ⟨q, List.mem_cons_self, e, he⟩, fun _ => List.cons_ne_nil _ _⟩
    · have hrefused := mt (knocks_of_admitted hheld) hfit
      have hsame := room?_of_no_knock hq hheld (not_exists.mp hfit)
      obtain ⟨s, taken, hs, hcontinues, hmembers, hadmitted, hfits⟩ := ih hrequests hsame
      refine ⟨s, taken, hs, hcontinues, hmembers, ?_, ?_⟩
      · rw [hadmitted, List.exists_mem_cons_iff, or_iff_right hrefused]
      · rw [hfits, List.exists_mem_cons_iff, or_iff_right hfit]

end

/-- Which rooms can be knocked on, in any run of requests for knocks and of knocks. A knock is
proposed only where the version of the room has knocks. The other half of the handshake does not ask
for that: the room grows by knocks of their own senders, and it does iff one was let in, and iff one
of the requests hands in a knock that fits the room as it was before the run, of whatever version the
room is. -/
theorem knocks_of_run {p : Peer} {routes : Routes} {requests : List Inbound}
    (hknocks : ∀ q ∈ requests, IsKnock routes q) {roomId : String} {r : Room}
    (hheld : p.room? roomId = some r) :
    let answered := requests.zip (p.receiveAll routes requests).1
    (∀ a ∈ answered, ∀ user, Reaches routes a.1 (.propose .knock) [roomId, user] →
      a.2.status = 200 → r.version.knocking = true) ∧
    ∃ s taken, (p.receiveAll routes requests).2.room? roomId = some s ∧
      s.events = r.events ++ taken ∧
      (∀ e ∈ taken, e.membership = some "knock" ∧ e.stateKey = some e.sender) ∧
      (taken ≠ [] ↔ ∃ a ∈ answered, Admitted routes roomId a) ∧
      (taken ≠ [] ↔ ∃ q ∈ requests, ∃ e, Knocks routes roomId r q e) := by
  intro answered
  obtain ⟨s, taken, hs, hcontinues, hmembers, hadmitted, hfits⟩ := continues_of_knocks hknocks hheld
  exact ⟨isOf_of_run (h := .knock) hheld, s, taken, hs, hcontinues.events_eq, hmembers, hadmitted,
    hfits⟩

/-! ### A room of a version without knocks -/

def legacyCreation : UnsignedEvent :=
  ⟨.v6, creationFields, Room.protoOf .v6 creationFields "a"⟩

/-- The created room of the host, in a version without knocks. -/
def legacyRoom : Room := (Room.new "!r:a" .v6).append (host.identity.signEvent legacyCreation)

def asking : Inbound :=
  ⟨1, "GET", .ofText "/_matrix/federation/v1/make_knock/!r:a/@v:b", none⟩

theorem reaches_asking :
    Reaches (Routes.ofBundles [.knock]) asking (.propose .knock) ["!r:a", "@v:b"] := by
  have hmatch : Route.makeKnock.path.match? asking.path = some ["!r:a".toList, "@v:b".toList] := by
    decide +kernel
  have hserves : Route.makeKnock.serves "GET" = true := by decide
  exact ⟨.makeKnock, _, Routes.find?_of_serves hserves hmatch [.sendKnock], by decide +kernel, rfl⟩

theorem room?_legacy : (host.holdRoom legacyRoom).room? "!r:a" = some legacyRoom := by
  have hid : legacyRoom.roomId = "!r:a" := Room.roomId_append _ _
  rw [room?_holdRoom, if_pos hid]

/-- A request for a knock is refused, and the room stays as it is. -/
theorem knocks_of_asking :
    let routes := Routes.ofBundles [.knock]
    IsKnock routes asking ∧ (host.holdRoom legacyRoom).room? "!r:a" = some legacyRoom ∧
      ((host.holdRoom legacyRoom).receive routes asking).1.status ≠ 200 ∧
      ∃ s, ((host.holdRoom legacyRoom).receiveAll routes [asking]).2.room? "!r:a" = some s ∧
        s.events = legacyRoom.events := by
  intro routes
  have hasking : IsKnock routes asking := isKnock_of_reaches reaches_asking (.inl rfl)
  obtain ⟨hproposed, s, taken, hs, hevents, -, -, hfits⟩ :=
    knocks_of_run (List.forall_mem_singleton.mpr hasking) room?_legacy
  refine ⟨hasking, room?_legacy, fun hstatus => ?_, s, hs, ?_⟩
  · have hversion : legacyRoom.version = .v6 := Room.version_append _ _
    have := hproposed _ (List.mem_singleton_self _) "@v:b" reaches_asking hstatus
    rw [hversion] at this
    cases this
  · have hnone : taken = [] := by
      by_contra hne
      obtain ⟨q, hq, e, he⟩ := hfits.mp hne
      rw [List.mem_singleton.mp hq] at he
      cases (reaches_asking.unique he.path).1
    rw [hevents, hnone, List.append_nil]

/-- A knock that the guest makes by itself. -/
def legacyKnock : Event := legacyRoom.memberEvent guest.identity "b" "@v:b" "knock" 2

def legacyKnockId : String := "$BXssrFJPS9MGHGUeOJCnksF5xTwECyX5NsbqejMxo1U"

/-- The fields of the knock. -/
def knockFields : EventFields :=
  ⟨"!r:a", "@v:b", "m.room.member", some "@v:b", .obj [("membership", .str "knock")], [creationId],
    [creationId], 2, 2⟩

/-- Both versions keep the same of the creation, whatever its hash is. -/
theorem eventId_creation (hash : Json) :
    eventId .v6 (.obj (Table.insert "hashes" hash creation.proto)) =
      eventId .default (.obj (Table.insert "hashes" hash creation.proto)) := by
  have hredact : redact .v6 (.obj (Table.insert "hashes" hash creation.proto)) =
      redact .default (.obj (Table.insert "hashes" hash creation.proto)) := rfl
  have halphabet : idAlphabet .v6 = idAlphabet .default := rfl
  unfold eventId
  rw [hredact, halphabet]

theorem id_legacyCreation : (host.identity.signEvent legacyCreation).id = creationId := by
  have hsorted : Table.Sorted creation.proto := Room.sorted_protoOf .default creationFields "a"
  rw [← id_creation, Identity.id_signEvent (u := legacyCreation) hsorted _ rfl,
    Identity.id_signEvent (u := creation) hsorted _ rfl]
  exact eventId_creation _

theorem memberFields_legacyRoom : legacyRoom.memberFields "@v:b" "knock" 2 = knockFields := by
  unfold knockFields
  rw [← id_legacyCreation]
  rfl

theorem id_legacyKnock : legacyKnock.id = legacyKnockId := by
  have hhash : contentHash (.obj (Room.protoOf .v6 knockFields "b")) =
      "HuFLWi+1zuNrJ5dICwcr3C8lrUpAL6/uoxarV35MCAg" := by
    rw [contentHash_eq]
    decide +kernel
  have hid := Identity.id_signEvent (u := ⟨.v6, knockFields, Room.protoOf .v6 knockFields "b"⟩)
    (Room.sorted_protoOf .v6 knockFields "b") guest.identity hhash
  rw [eventId_eq] at hid
  unfold legacyKnock Room.memberEvent
  rw [memberFields_legacyRoom]
  exact hid.trans (by decide +kernel)

def handing : Inbound :=
  ⟨3, "PUT", .ofText ("/_matrix/federation/v1/send_knock/!r:a/" ++ legacyKnockId),
    some legacyKnock.json⟩

theorem reaches_handing :
    Reaches (Routes.ofBundles [.knock]) handing (.accept .knock) ["!r:a", legacyKnockId] := by
  have hmatch : Route.sendKnock.path.match? handing.path =
      some ["!r:a".toList, legacyKnockId.toList] := by
    unfold Inbound.path handing
    decide +kernel
  have hother : Route.makeKnock.serves "PUT" = false := by decide
  have hserves : Route.sendKnock.serves "PUT" = true := by decide
  exact ⟨.sendKnock, _, (Routes.find?_of_not_serves hother _ [.sendKnock]).trans
    (Routes.find?_of_serves hserves hmatch []), by decide +kernel, rfl⟩

theorem settled_legacyRoom : legacyRoom.Settled :=
  (Room.settled_new "!r:a" .v6).append
    ⟨⟨rfl, rfl, fun _ => rfl, rfl, by decide⟩, fun _ h => (nomatch h)⟩

theorem contains_legacyKnock : legacyRoom.contains legacyKnock.id = false := by
  refine Bool.eq_false_iff.mpr fun h => ?_
  rcases (Room.contains_append _ _ _).mp h with h | h
  · rw [id_legacyCreation, id_legacyKnock] at h
    exact absurd h (by decide)
  · cases h

theorem knocks_handing :
    Knocks (Routes.ofBundles [.knock]) "!r:a" legacyRoom handing legacyKnock := by
  have htime : Json.Safe 2 := ⟨by decide, by decide⟩
  have hdepth : Json.Safe (legacyRoom.depth + 1) := htime
  have hne : legacyRoom.events ≠ [] := by
    unfold legacyRoom
    rw [Room.events_append rfl]
    exact List.cons_ne_nil _ _
  have hadd : legacyRoom.addEvent legacyKnock = .ok (legacyRoom.append legacyKnock) :=
    settled_legacyRoom.addEvent_tips (by decide) hne rfl contains_legacyKnock rfl rfl
  obtain ⟨hfits, htips, -⟩ := Room.addEvent_ok.mp hadd
  constructor
  case toFits => exact hfits
  case path =>
    rw [id_legacyKnock]
    exact reaches_handing
  case body => rfl
  case parsed => exact Room.ofPdu_memberEvent htime hdepth guest.identity "b" "@v:b" "knock"
  case named => rfl
  case membership => rfl
  case sender => rfl
  case tips => exact htips

/-- A room whose version has no knocks takes a knock all the same, though none is proposed on it. -/
theorem legacy_room_takes_knock : ∃ (p : Peer) (r s : Room),
    let routes := Routes.ofBundles [.knock]
    p.room? "!r:a" = some r ∧ r.version.knocking = false ∧
      IsKnock routes asking ∧ (p.receive routes asking).1.status ≠ 200 ∧
      IsKnock routes handing ∧ (p.receive routes handing).1.status = 200 ∧
      (p.receive routes handing).2.room? "!r:a" = some s ∧ s.events ≠ r.events := by
  obtain ⟨v, hreceive⟩ := knocks_handing.receive_eq room?_legacy
  have hversion : legacyRoom.version.knocking = false := by
    have hv : legacyRoom.version = .v6 := Room.version_append _ _
    rw [hv]
    rfl
  refine ⟨host.holdRoom legacyRoom, legacyRoom, legacyRoom.append legacyKnock, room?_legacy, hversion,
    isKnock_of_reaches reaches_asking (.inl rfl), ?_,
    isKnock_of_reaches reaches_handing (.inr rfl), ?_, ?_, ?_⟩
  · intro hstatus
    have hof : legacyRoom.version.knocking = true :=
      isOf_of_proposed room?_legacy reaches_asking hstatus
    rw [hversion] at hof
    cases hof
  · rw [hreceive]
    rfl
  · rw [hreceive]
    exact knocks_handing.room?_append
  · rw [Room.events_append contains_legacyKnock]
    intro hsame
    exact absurd (List.append_right_eq_self.mp hsame) (List.cons_ne_nil _ _)

end Peer

end Homeserver
