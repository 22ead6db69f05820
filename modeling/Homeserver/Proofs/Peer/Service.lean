/-
Requests of other servers only append. Whatever is asked for, the peer holds the same rooms under
the same aliases as before, and each room has at most grown by events that were appended to it. So
what was recorded stays, and a room that knows all ancestors of its events keeps doing so. A request
that is answered with an error leaves all as it was, but that a strict peer remembers it.
-/
import Homeserver.Peer.Service
import Homeserver.Proofs.Peer.Join
import Homeserver.Proofs.Peer.Transaction

namespace Homeserver

namespace Peer

/-! ## Peers whose rooms change -/

/-- A peer becomes another one that holds the same rooms under the same aliases, each room changed
in this way. -/
structure Keeps (way : Room → Room → Prop) (p q : Peer) : Prop where
  rooms : ∀ id, Option.Rel way (p.room? id) (q.room? id)
  aliases : q.aliases = p.aliases

section Keeps

variable {way : Room → Room → Prop} {p q s : Peer}

theorem keeps_of_eq (hrefl : ∀ r, way r r) (hrooms : q.rooms = p.rooms)
    (haliases : q.aliases = p.aliases) : Keeps way p q where
  rooms := by
    intro id
    have heq : q.room? id = p.room? id := congrArg (Table.find? id) hrooms
    rw [heq]
    cases p.room? id with
    | none => exact .none
    | some r => exact .some (hrefl r)
  aliases := haliases

theorem Keeps.exists_room? (h : Keeps way p q) {id : String} {r : Room}
    (hr : p.room? id = some r) : ∃ s, q.room? id = some s ∧ way r s := by
  have hid := h.rooms id
  rw [hr] at hid
  cases hq : q.room? id with
  | none => rw [hq] at hid; cases hid
  | some s =>
    rw [hq] at hid
    cases hid with
    | some h => exact ⟨s, rfl, h⟩

theorem Keeps.room?_of_none (h : Keeps way p q) {id : String} (hr : p.room? id = none) :
    q.room? id = none := by
  have hid := h.rooms id
  rw [hr] at hid
  cases hq : q.room? id with
  | none => rfl
  | some s => rw [hq] at hid; cases hid

theorem Keeps.trans (htrans : ∀ {r s t}, way r s → way s t → way r t) (h : Keeps way p q)
    (h' : Keeps way q s) : Keeps way p s where
  rooms := by
    intro id
    cases hr : p.room? id with
    | none =>
      rw [h'.room?_of_none (h.room?_of_none hr)]
      exact .none
    | some r =>
      obtain ⟨r', hr', hway⟩ := h.exists_room? hr
      obtain ⟨r'', hr'', hway'⟩ := h'.exists_room? hr'
      rw [hr'']
      exact .some (htrans hway hway')
  aliases := h'.aliases.trans h.aliases

theorem Keeps.mono {other : Room → Room → Prop} (h : Keeps way p q)
    (himp : ∀ id r s, p.room? id = some r → way r s → other r s) : Keeps other p q where
  rooms := by
    intro id
    cases hr : p.room? id with
    | none =>
      rw [h.room?_of_none hr]
      exact .none
    | some r =>
      obtain ⟨r', hr', hway⟩ := h.exists_room? hr
      rw [hr']
      exact .some (himp id r r' hr hway)
  aliases := h.aliases

end Keeps

/-- The rooms of a peer continue by events on top of their forward extremities. -/
abbrev Continues (p q : Peer) : Prop := Keeps (fun r s => ∃ l, r.Continues l s) p q

/-- The rooms of a peer grow by events that follow recorded ones. -/
abbrev Advances (p q : Peer) : Prop := Keeps (fun r s => ∃ l, r.Grows l s) p q

/-- Each room that the peer holds has a well-formed graph. -/
def RoomsWellFormed (p : Peer) : Prop := ∀ id r, p.room? id = some r → r.WellFormed

section

variable {p q s : Peer}

theorem continues_of_eq (hrooms : q.rooms = p.rooms) (haliases : q.aliases = p.aliases) :
    Continues p q :=
  keeps_of_eq (fun _ => ⟨[], .refl⟩) hrooms haliases

theorem Continues.refl (p : Peer) : Continues p p := continues_of_eq rfl rfl

theorem Continues.trans (h : Continues p q) (h' : Continues q s) : Continues p s :=
  Keeps.trans (fun ⟨_, hl⟩ ⟨_, hl'⟩ => ⟨_, hl.trans hl'⟩) h h'

/-- A peer appends an event to a room that it holds. -/
theorem continues_holdRoom {r next : Room} {e : Event} (hheld : p.room? r.roomId = some r)
    (hadd : r.addEvent e = .ok next) : Continues p (p.holdRoom next) where
  rooms := by
    intro id
    have hcontinues := Room.continues_of_addEvent hadd
    rw [room?_holdRoom, hcontinues.roomId_eq]
    split
    · rename_i hid
      rw [← hid, hheld]
      exact .some ⟨_, hcontinues⟩
    · exact (Continues.refl p).rooms id
  aliases := rfl

theorem Continues.advances (h : Continues p q) (hp : p.RoomsWellFormed) : Advances p q :=
  h.mono fun id r _ hr ⟨_, hl⟩ => ⟨_, hl.grows (hp id r hr).tips⟩

theorem Advances.room?_of_some (h : Advances p q) {id : String} {r : Room}
    (hr : p.room? id = some r) : ∃ s l, q.room? id = some s ∧ r.Grows l s := by
  obtain ⟨s, hs, l, hl⟩ := h.exists_room? hr
  exact ⟨s, l, hs, hl⟩

/-- Graphs stay well-formed as rooms grow. -/
theorem Advances.wellFormed (h : Advances p q) (hp : p.RoomsWellFormed) : q.RoomsWellFormed := by
  intro id s hs
  cases hr : p.room? id with
  | none =>
    rw [h.room?_of_none hr] at hs
    cases hs
  | some r =>
    obtain ⟨s', l, hs', hl⟩ := h.room?_of_some hr
    rw [hs] at hs'
    cases hs'
    exact hl.wellFormed (hp id r hr)

end

/-! ## Requests that change a peer -/

section

variable {p next : Peer}

/-- What a request must send to be read as the membership that its path names. -/
theorem readMembership_ok {h : Handshake} {version : RoomVersion} {roomId eventId : String}
    {body : Option Json} {e : Event}
    (hread : readMembership h version roomId eventId body = .ok e) :
    ∃ pdu, body = some pdu ∧ Event.ofPdu version pdu = .ok e ∧ e.id = eventId ∧ e.roomId = roomId ∧
      e.membership = some h.membership ∧ e.stateKey = some e.sender := by
  unfold readMembership at hread
  split at hread
  · rename_i pdu
    obtain ⟨f, hf, hread⟩ := bind_ok.mp hread
    obtain ⟨hid, hread⟩ := unless_ok.mp hread
    obtain ⟨hroom, hread⟩ := unless_ok.mp hread
    obtain ⟨hmember, hread⟩ := unless_ok.mp hread
    cases hread
    exact ⟨pdu, rfl, mapError_ok.mp hf, Decidable.not_not.mp hid, Decidable.not_not.mp hroom,
      by simpa using hmember⟩
  · cases hread

/-- What is accepted as a membership is appended to the held room that its path names, and is answered
with the room as it was before. -/
theorem acceptMembership_spec {h : Handshake} {roomId eventId : String} {body : Option Json}
    {a : AcceptedMembership} (haccept : p.acceptMembership h roomId eventId body = .ok (a, next)) :
    ∃ r s, p.room? roomId = some r ∧
      readMembership h r.version roomId eventId body = .ok a.event ∧ r.addEvent a.event = .ok s ∧
      next = p.holdRoom s ∧ a = ⟨a.event, r.currentState,
        r.authChain (authorisingIds r.currentState a.event), r.strippedState⟩ := by
  unfold acceptMembership at haccept
  obtain ⟨r, hr, haccept⟩ := bind_ok.mp haccept
  obtain ⟨e, hread, haccept⟩ := bind_ok.mp haccept
  obtain ⟨s, hadd, haccept⟩ := bind_ok.mp haccept
  cases haccept
  exact ⟨r, s, knownRoom_ok.mp hr, hread, mapError_ok.mp hadd, rfl, rfl⟩

/-- An accepted membership was appended to the held room that its path names. -/
theorem acceptMembership_cases {h : Handshake} {roomId eventId : String} {body : Option Json}
    {a : AcceptedMembership} (haccept : p.acceptMembership h roomId eventId body = .ok (a, next)) :
    ∃ r s e pdu, p.room? roomId = some r ∧ body = some pdu ∧ Event.ofPdu r.version pdu = .ok e ∧
      e.roomId = roomId ∧ r.addEvent e = .ok s ∧ next = p.holdRoom s := by
  obtain ⟨r, s, hheld, hread, hadd, hnext, -⟩ := acceptMembership_spec haccept
  obtain ⟨pdu, hbody, hparse, -, hroom, -⟩ := readMembership_ok hread
  exact ⟨r, s, a.event, pdu, hheld, hbody, hparse, hroom, hadd, hnext⟩

theorem acceptMembership_continues {h : Handshake} {roomId eventId : String} {body : Option Json}
    {a : AcceptedMembership} (haccept : p.acceptMembership h roomId eventId body = .ok (a, next)) :
    Continues p next := by
  obtain ⟨r, s, e, _, hheld, -, -, hroom, hadd, rfl⟩ := acceptMembership_cases haccept
  -- the event is found to belong to the room of the path and to the held one
  have hid : roomId = r.roomId := hroom.symm.trans (Room.addEvent_ok.mp hadd).1.room
  exact continues_holdRoom (hid ▸ hheld) hadd

/-- What a request must send to be read as the invite that its path names. -/
theorem readInvite_ok {roomId eventId : String} {body : Option Json} {version : RoomVersion}
    {e : Event} (hread : readInvite roomId eventId body = .ok (version, e)) :
    ∃ sent pdu, body = some sent ∧ sent.get? "room_version" = some (.str version.id) ∧
      sent.get? "event" = some pdu ∧ Event.ofPdu version pdu = .ok e ∧ e.id = eventId ∧
      e.roomId = roomId ∧ e.membership = some "invite" := by
  unfold readInvite at hread
  split at hread
  · rename_i sent
    split at hread
    · rename_i versionId hversion
      obtain ⟨v, hv, hread⟩ := bind_ok.mp hread
      split at hread
      · rename_i pdu hpdu
        obtain ⟨f, hf, hread⟩ := bind_ok.mp hread
        obtain ⟨hnames, hread⟩ := unless_ok.mp hread
        obtain ⟨hinvite, hread⟩ := unless_ok.mp hread
        cases hread
        obtain ⟨v', hfound, hstring⟩ := Option.bind_eq_some_iff.mp hversion
        have hnames : e.id = eventId ∧ e.roomId = roomId := by simpa using hnames
        refine ⟨sent, pdu, rfl, ?_, hpdu, mapError_ok.mp hf, hnames.1, hnames.2,
          Decidable.not_not.mp hinvite⟩
        rw [← RoomVersion.id_of_ofId (mapError_ok.mp hv)]
        cases v' with
        | str text => cases hstring; exact hfound
        | _ => cases hstring
      · cases hread
    · cases hread
  · cases hread

/-- An accepted invite is signed by the peer, which remembers it and its room's version. -/
theorem acceptInvite_spec {roomId eventId : String} {body : Option Json} {e : Event}
    (haccept : p.acceptInvite roomId eventId body = .ok (e, next)) :
    ∃ version f, readInvite roomId eventId body = .ok (version, f) ∧
      Ids.serverName? (f.stateKey.getD "") = some p.serverName ∧
      f.addSignature p.identity = .ok e ∧ next = { p with
        invitedVersions := Table.insert roomId version p.invitedVersions
        invites := p.invites ++ [e] } := by
  unfold acceptInvite at haccept
  obtain ⟨⟨version, f⟩, hread, haccept⟩ := bind_ok.mp haccept
  obtain ⟨hname, haccept⟩ := unless_ok.mp haccept
  obtain ⟨signed, hsigned, haccept⟩ := bind_ok.mp haccept
  cases haccept
  exact ⟨version, f, hread, Decidable.not_not.mp hname, mapError_ok.mp hsigned, rfl⟩

/-- Of an accepted invite its room's version and the invite itself are remembered. -/
theorem acceptInvite_cases {roomId eventId : String} {body : Option Json} {e : Event}
    (haccept : p.acceptInvite roomId eventId body = .ok (e, next)) :
    ∃ version, next = { p with
      invitedVersions := Table.insert roomId version p.invitedVersions
      invites := p.invites ++ [e] } := by
  obtain ⟨version, -, -, -, -, hnext⟩ := acceptInvite_spec haccept
  exact ⟨version, hnext⟩

theorem acceptInvite_continues {roomId eventId : String} {body : Option Json} {e : Event}
    (haccept : p.acceptInvite roomId eventId body = .ok (e, next)) : Continues p next := by
  obtain ⟨version, rfl⟩ := acceptInvite_cases haccept
  exact continues_of_eq rfl rfl

theorem acceptPdu_continues {pdu : Json} (haccept : p.acceptPdu pdu = .ok next) :
    Continues p next := by
  obtain ⟨e, he, rfl | ⟨r, s, hheld, hadd, rfl⟩⟩ := acceptPdu_cases haccept
  · exact continues_of_eq rfl rfl
  · exact (continues_holdRoom hheld hadd).trans (continues_of_eq rfl rfl)

theorem afterPdu_continues (p : Peer) (pdu : Json) : Continues p (p.afterPdu pdu) := by
  unfold afterPdu
  split
  · cases haccept : p.acceptPdu pdu with
    | error err => exact Continues.refl p
    | ok next => exact acceptPdu_continues haccept
  · exact continues_of_eq rfl rfl

theorem foldl_afterPdu_continues (p : Peer) (pdus : List Json) :
    Continues p (pdus.foldl afterPdu p) := by
  induction pdus generalizing p with
  | nil => exact Continues.refl p
  | cons pdu pdus ih => exact (afterPdu_continues p pdu).trans (ih _)

/-- The events of a transaction are taken one after the other, all or those in front of one that
breaks off, and messages are remembered. -/
theorem receiveTransaction_cases {body : Option Json} {o : Option (TransactionOutcome EventError)}
    (h : p.receiveTransaction body = .ok (o, next)) : ∃ taken heard : List Json,
      next = { taken.foldl afterPdu p with edus := heard } := by
  unfold receiveTransaction at h
  split at h
  · obtain ⟨pdus, -, h⟩ := bind_ok.mp h
    obtain ⟨edus, -, h⟩ := bind_ok.mp h
    have hnext : next = (p.takeTransaction pdus edus).2 := (congrArg Prod.snd (Except.ok.inj h)).symm
    obtain ⟨heard, hafter⟩ := takeTransaction_snd p pdus edus
    exact ⟨p.taken pdus, heard, hnext.trans hafter⟩
  · cases h

theorem receiveTransaction_continues {body : Option Json}
    {o : Option (TransactionOutcome EventError)} (h : p.receiveTransaction body = .ok (o, next)) :
    Continues p next := by
  obtain ⟨taken, heard, rfl⟩ := receiveTransaction_cases h
  exact (foldl_afterPdu_continues p taken).trans (continues_of_eq rfl rfl)

end

/-! ## What a request changes -/

/-- What a request makes of a peer if it is served by a change, or breaks off in one. -/
inductive Changes (p : Peer) (q : Inbound) : Peer → Prop
  | membership {h : Handshake} {roomId eventId : String} {a : AcceptedMembership} {next : Peer} :
      p.acceptMembership h roomId eventId q.body = .ok (a, next) → Changes p q next
  | invite {roomId eventId : String} {e : Event} {next : Peer} :
      p.acceptInvite roomId eventId q.body = .ok (e, next) → Changes p q next
  | transaction {o : Option (TransactionOutcome EventError)} {next : Peer} :
      p.receiveTransaction q.body = .ok (o, next) → Changes p q next

section

variable {p : Peer} {q : Inbound}

theorem Changes.continues {next : Peer} (h : Changes p q next) : Continues p next := by
  cases h with
  | membership h => exact acceptMembership_continues h
  | invite h => exact acceptInvite_continues h
  | transaction h => exact receiveTransaction_continues h

theorem answerLookup_snd (p : Peer) (result : Except Refusal Json) :
    (p.answerLookup result).2 = p := by
  unfold answerLookup
  split <;> rfl

theorem answerChange_cases {α : Type} {result : Except Refusal (α × Peer)} (body : α → Json)
    (h : ∀ a next, result = .ok (a, next) → Changes p q next) :
    (p.answerChange result body).2 = p ∨
      Changes p q (p.answerChange result body).2 ∧ (p.answerChange result body).1.status < 400 := by
  cases result with
  | error why => exact .inl rfl
  | ok made => exact .inr ⟨h made.1 made.2 rfl, show 200 < 400 by decide⟩

theorem answerTransaction_cases
    {result : Except Refusal (Option (TransactionOutcome EventError) × Peer)}
    (h : ∀ o next, result = .ok (o, next) → Changes p q next) :
    (p.answerTransaction result).2 = p ∨
      Changes p q (p.answerTransaction result).2 ∧ (p.answerTransaction result).1.status < 400 := by
  cases result with
  | error why => exact .inl rfl
  | ok made =>
    obtain ⟨o, next⟩ := made
    cases o with
    | none => exact .inr ⟨h none next rfl, show 0 < 400 by decide⟩
    | some outcome => exact .inr ⟨h (some outcome) next rfl, show 200 < 400 by decide⟩

/-- A service leaves the peer as it is, or makes one of the changes and answers with no error. -/
theorem answer_cases (e : Endpoint) (p : Peer) (q : Inbound) (parameters : List String) :
    (e.answer p q parameters).2 = p ∨
      Changes p q (e.answer p q parameters).2 ∧ (e.answer p q parameters).1.status < 400 := by
  unfold Endpoint.answer
  split
  · exact .inl (answerLookup_snd _ _)
  · left
    unfold answerDirectory
    split
    · exact answerLookup_snd _ _
    · rfl
  · exact .inl (answerLookup_snd _ _)
  · exact answerChange_cases _ fun _ _ h => .membership h
  · exact answerChange_cases _ fun _ _ h => .invite h
  · exact answerTransaction_cases fun _ _ h => .transaction h
  · exact .inl (answerLookup_snd _ _)
  · exact .inl (answerLookup_snd _ _)
  · exact .inl rfl
  · exact .inl rfl

/-- A request leaves the peer as it is, but that it may be remembered as unexpected, or it makes one
of the changes and is answered with no error. -/
theorem receive_cases (routes : Routes) (p : Peer) (q : Inbound) :
    (∃ unexpected, (p.receive routes q).2 = { p with unexpected }) ∨
      Changes p q (p.receive routes q).2 ∧ (p.receive routes q).1.status < 400 := by
  unfold receive
  split
  · left
    unfold answerUnexpected
    split
    · exact ⟨p.unexpected ++ [q.shown], rfl⟩
    · exact ⟨p.unexpected, rfl⟩
  · rename_i route values _
    split
    · rename_i parameters _
      rcases answer_cases route.endpoint p q parameters with hsame | hchanged
      · exact .inl ⟨p.unexpected, hsame⟩
      · exact .inr hchanged
    · exact .inl ⟨p.unexpected, rfl⟩

/-- A request continues the rooms, if it changes them. -/
theorem receive_continues (routes : Routes) (p : Peer) (q : Inbound) :
    Continues p (p.receive routes q).2 := by
  rcases receive_cases routes p q with ⟨unexpected, hsame⟩ | ⟨hchanges, -⟩
  · rw [hsame]
    exact continues_of_eq rfl rfl
  · exact hchanges.continues

/-- A run of requests continues the rooms by what each request appends. -/
theorem receiveAll_continues (routes : Routes) (p : Peer) (requests : List Inbound) :
    Continues p (p.receiveAll routes requests).2 := by
  induction requests generalizing p with
  | nil => exact Continues.refl p
  | cons q requests ih => exact (receive_continues routes p q).trans (ih _)

theorem receive_advances (hp : p.RoomsWellFormed) (routes : Routes) (q : Inbound) :
    Advances p (p.receive routes q).2 :=
  (receive_continues routes p q).advances hp

/-- A request that is answered with an error leaves the peer as it is, but that it may be remembered
as unexpected. -/
theorem receive_of_error {routes : Routes} (h : 400 ≤ (p.receive routes q).1.status) :
    ∃ unexpected, (p.receive routes q).2 = { p with unexpected } := by
  rcases receive_cases routes p q with hsame | ⟨-, hstatus⟩
  · exact hsame
  · omega

end

/-- Requests only append, and failed ones change nothing. A peer whose rooms have well-formed graphs
holds the same rooms under the same aliases after any request. Each is well-formed still, its old
timeline starts the new one, and the recorded events are as they were. After an answer with an error
all rooms and all versions of invites are as before. -/
theorem receive_appends {p : Peer} (hp : p.RoomsWellFormed) (routes : Routes) (q : Inbound) :
    (∀ id, ((p.receive routes q).2.room? id).isSome = (p.room? id).isSome) ∧
      (p.receive routes q).2.aliases = p.aliases ∧
      (∀ id r s, p.room? id = some r → (p.receive routes q).2.room? id = some s →
        s.WellFormed ∧ r.timeline <+: s.timeline ∧
          ∀ eventId e, r.event? eventId = some e → s.event? eventId = some e) ∧
      (400 ≤ (p.receive routes q).1.status → (p.receive routes q).2.rooms = p.rooms ∧
        (p.receive routes q).2.invitedVersions = p.invitedVersions) := by
  have hadvances := receive_advances hp routes q
  refine ⟨fun id => ?_, hadvances.aliases, fun id r s hr hs => ?_, fun herror => ?_⟩
  · cases hr : p.room? id with
    | none => rw [hadvances.room?_of_none hr]
    | some r =>
      obtain ⟨s, l, hs, -⟩ := hadvances.room?_of_some hr
      rw [hs]
      rfl
  · obtain ⟨s', l, hs', hl⟩ := hadvances.room?_of_some hr
    rw [hs] at hs'
    cases hs'
    refine ⟨hadvances.wellFormed hp id s hs, ?_, fun eventId e he => hl.event? he⟩
    rw [hl.timeline_eq]
    exact List.prefix_append _ _
  · obtain ⟨unexpected, hsame⟩ := receive_of_error herror
    rw [hsame]
    exact ⟨rfl, rfl⟩

theorem roomsWellFormed_host : (host.holdRoom createdRoom).RoomsWellFormed := by
  intro id r h
  rw [room?_holdRoom] at h
  split at h
  · cases h
    exact settled_createdRoom.toWellFormed
  · cases h

/-- The host records the first join behind the creation of the room. -/
theorem receive_appends_firstJoin :
    (host.holdRoom createdRoom).RoomsWellFormed ∧
      ∃ s, ((host.holdRoom createdRoom).receive (Routes.ofBundles [.join]) sending).2.room? "!r:a" =
          some s ∧
        s.WellFormed ∧ createdRoom.timeline <+: s.timeline ∧ s.contains firstJoin.id = true := by
  have hr : createdRoom.Settled := createdRoom_of_run ▸ Room.settled_afterAll _ _ _
  have hheld : (host.holdRoom createdRoom).room? createdRoom.roomId = some createdRoom := by
    rw [room?_holdRoom, if_pos rfl]
  have htime : Json.Safe 2 := ⟨by decide, by decide⟩
  have hreceive : (host.holdRoom createdRoom).receive (Routes.ofBundles [.join]) sending =
      (.served ((host.holdRoom createdRoom).joinAnswer createdRoom firstJoin),
        (host.holdRoom createdRoom).holdRoom (createdRoom.append firstJoin)) :=
    receive_sendJoin hheld hr (by decide) (Room.events_ne_nil_of_stateEvent? stateEvent?_createdRoom)
      (ofPdu_joinFor htime (show Json.Safe (createdRoom.depth + 1) from htime) guest "@v:b") rfl
      contains_firstJoin (delivered_sendJoin toRoot_sendJoin 3)
  have hafter : ((host.holdRoom createdRoom).receive (Routes.ofBundles [.join]) sending).2.room?
      createdRoom.roomId = some (createdRoom.append firstJoin) := by
    rw [hreceive, room?_holdRoom, if_pos (Room.roomId_append _ _)]
  obtain ⟨-, -, hrooms, -⟩ := receive_appends roomsWellFormed_host (Routes.ofBundles [.join]) sending
  obtain ⟨hwf, hprefix, -⟩ := hrooms _ createdRoom _ hheld hafter
  exact ⟨roomsWellFormed_host, _, hafter, hwf, hprefix,
    (Room.contains_append _ _ _).mpr (.inl rfl)⟩

end Peer

end Homeserver
