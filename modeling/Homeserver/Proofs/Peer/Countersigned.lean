/-
Joins of rooms on servers that may answer anything. The joining peer records the event that the
other server gives back with the answer, or the join itself if none is given. It only asks that this
is an event of the room; so the join that was sent is what the room is left with iff the event that
was given back is the join.
-/
import Homeserver.Proofs.Peer.Join

namespace Homeserver

/-! ## Successful joins -/

/-- What an answer to a join is read as: the state, what authorises it, and the event that is
recorded, which is the join itself if none is given back. -/
structure JoinAnswer.ReadAs (a : JoinAnswer) (version : RoomVersion) (join : Event)
    (state chain : List Event) (recorded : Event) : Prop where
  state : a.state.mapM (Event.ofPdu version) = .ok state
  chain : a.authChain.mapM (Event.ofPdu version) = .ok chain
  given : ∀ pdu, a.event = some pdu → Event.ofPdu version pdu = .ok recorded
  own : a.event = none → recorded = join

/-- A room is made of an answer iff it can be read and a room can be made of what it is read as. -/
theorem JoinAnswer.room_ok {a : JoinAnswer} {version : RoomVersion} {roomId : String} {join : Event}
    {r : Room} : a.room version roomId join = .ok r ↔ ∃ state chain recorded,
      a.ReadAs version join state chain recorded ∧
      Room.ofRemoteJoin version roomId state chain recorded = .ok r := by
  unfold JoinAnswer.room
  constructor
  · intro h
    obtain ⟨state, hstate, h⟩ := bind_ok.mp h
    obtain ⟨chain, hchain, h⟩ := bind_ok.mp h
    cases hevent : a.event with
    | none =>
      simp only [hevent] at h
      exact ⟨state, chain, join, ⟨hstate, hchain, fun _ hpdu => (nomatch hevent.symm.trans hpdu),
        fun _ => rfl⟩, h⟩
    | some pdu =>
      simp only [hevent] at h
      obtain ⟨recorded, hrecorded, h⟩ := bind_ok.mp h
      refine ⟨state, chain, recorded, ⟨hstate, hchain, fun pdu' hpdu => ?_, fun hnone => ?_⟩, h⟩
      · cases hevent.symm.trans hpdu
        exact hrecorded
      · exact nomatch hevent.symm.trans hnone
  · rintro ⟨state, chain, recorded, hread, hroom⟩
    refine bind_ok.mpr ⟨state, hread.state, bind_ok.mpr ⟨chain, hread.chain, ?_⟩⟩
    cases hevent : a.event with
    | none => rw [← hread.own hevent]; exact hroom
    | some pdu => exact bind_ok.mpr ⟨recorded, hread.given pdu hevent, hroom⟩

namespace Peer

/-- A join that succeeds: what was sent, what the answer was read as, and the room that was made of
it. -/
theorem join_cases {p next : Peer} {destinations : Destinations} {now : Int}
    {destination roomId user : String} {replies : List Reply} {r : Room}
    (h : (p.join destinations now destination roomId user replies).1 = .ok (r, next)) :
    ∃ version join body answer state chain recorded,
      (p.prepareJoin destinations now destination roomId user replies[0]?).1 = .ok (version, join) ∧
      (∃ sent, (p.join destinations now destination roomId user replies).2.getLast? = some sent ∧
        sent.method = "PUT" ∧ sent.body = some join.json) ∧
      ((JoinAnswer.request destination join).ask p.identity destinations replies[1]?).1 = .ok body ∧
      JoinAnswer.read destination body = .ok answer ∧
      answer.ReadAs version join state chain recorded ∧
      Room.ofRemoteJoin version roomId state chain recorded = .ok r ∧ next = p.holdRoom r := by
  unfold Peer.join at h ⊢
  cases hprepared : p.prepareJoin destinations now destination roomId user replies[0]? with
  | mk made asked =>
    rw [hprepared] at h
    cases made with
    | error e => cases h
    | ok made =>
      obtain ⟨version, join⟩ := made
      unfold completeJoin at h ⊢
      obtain ⟨body, hbody, h⟩ := bind_ok.mp h
      obtain ⟨answer, hanswer, h⟩ := bind_ok.mp h
      obtain ⟨joined, hjoined, h⟩ := bind_ok.mp h
      cases h
      obtain ⟨sent, hsent, hmethod, hcontent⟩ := Outbound.ask_sent hbody
      obtain ⟨state, chain, recorded, hread, hroom⟩ := JoinAnswer.room_ok.mp (mapError_ok.mp hjoined)
      refine ⟨version, join, body, answer, state, chain, recorded, rfl, ⟨sent, ?_, hmethod, hcontent⟩,
        hbody, hanswer, hread, hroom, rfl⟩
      show (asked ++ ((JoinAnswer.request destination join).ask p.identity destinations
        replies[1]?).2).getLast? = _
      rw [hsent, List.getLast?_append]
      rfl

/-- What a join leaves behind, whatever the other server answers. If it succeeds, the peer holds a
room under the id that was asked for, with the recorded event as its only forward extremity. This is
the join that was sent, and the user has joined, iff the recorded event has the id of the join and
the user's membership is a join: in the recorded event if it is that membership, else in the state
that was sent along. -/
theorem join_records_iff {p next : Peer} {destinations : Destinations} {now : Int}
    {destination roomId user : String} {replies : List Reply} {r : Room}
    (h : (p.join destinations now destination roomId user replies).1 = .ok (r, next)) :
    ∃ version join body answer state chain recorded,
      (∃ sent, (p.join destinations now destination roomId user replies).2.getLast? = some sent ∧
        sent.method = "PUT" ∧ sent.body = some join.json) ∧
      (p.prepareJoin destinations now destination roomId user replies[0]?).1 = .ok (version, join) ∧
      ((JoinAnswer.request destination join).ask p.identity destinations replies[1]?).1 = .ok body ∧
      JoinAnswer.read destination body = .ok answer ∧
      answer.ReadAs version join state chain recorded ∧
      next.room? roomId = some r ∧ r.forwardExtremities = [recorded.id] ∧
      (r.membership user = some "join" ∧ r.forwardExtremities = [join.id] ↔
        recorded.id = join.id ∧
          if recorded.place? = some (.member user) then recorded.membership = some "join"
          else ((Room.seeded roomId version state chain).record recorded).membership user =
            some "join") := by
  obtain ⟨version, join, body, answer, state, chain, recorded, hprepared, hsent, hbody, hanswer,
    hread, hroom, rfl⟩ := join_cases h
  obtain ⟨htips, -⟩ := Room.ofRemoteJoin_ok hroom
  refine ⟨version, join, body, answer, state, chain, recorded, hsent, hprepared, hbody, hanswer,
    hread, ?_, htips, ?_⟩
  · rw [room?_holdRoom, if_pos (Room.roomId_ofRemoteJoin hroom)]
  · have hmember : r.membership user = some "join" ↔
        if recorded.place? = some (.member user) then recorded.membership = some "join"
        else ((Room.seeded roomId version state chain).record recorded).membership user =
          some "join" := by
      unfold Room.membership
      rw [Room.stateEvent?_ofRemoteJoin hroom]
      split
      · rw [Option.bind_some]
      · rfl
    rw [hmember, htips, List.singleton_inj, and_comm]

/-! ### The first join -/

/-- What the host proposes to the guest. -/
def proposed : Reply := (PeerAnswer.served (host.proposal createdRoom .join 1 "@v:b")).reply "GET"

/-- The proposal makes the guest send its first join. -/
theorem prepareJoin_proposed : (guest.prepareJoin [("a", "http://a")] 2 "a" "!r:a" "@v:b"
    (some proposed)).1 = .ok (.default, firstJoin) := by
  have htime : Json.Safe 1 := ⟨by decide, by decide⟩
  have hnow : Json.Safe 2 := ⟨by decide, by decide⟩
  have hdepth : Json.Safe (createdRoom.depth + 1) := hnow
  have hreadable : (host.proposal createdRoom .join 1 "@v:b").Readable Json.maxDepth :=
    (readable_proposal htime hdepth host .join "@v:b").mono (by decide)
  exact prepareJoin_ok (r := createdRoom) hnow hdepth (toRoot_makeJoin.ask_ok hreadable)

/-- The host's own answer to the join. -/
def accepted : Reply := (PeerAnswer.served (host.joinAnswer createdRoom firstJoin)).reply "PUT"

/-- The join that the host accepts is recorded. -/
theorem join_records_iff_firstJoin : ∃ r, (guest.join [("a", "http://a")] 2 "a" "!r:a" "@v:b"
      [proposed, accepted]).1 = .ok (r, guest.holdRoom r) ∧
    r.membership "@v:b" = some "join" ∧ r.forwardExtremities = [firstJoin.id] := by
  have hnow : Json.Safe 2 := ⟨by decide, by decide⟩
  have hdepth : Json.Safe (createdRoom.depth + 1) := hnow
  have hparse : Event.ofPdu .default firstJoin.json = .ok firstJoin :=
    ofPdu_joinFor hnow hdepth guest "@v:b"
  have hreadable : (host.joinAnswer createdRoom firstJoin).Readable Json.maxDepth :=
    (readable_joinAnswer (fun e he => (createdRoom_events e he).2)
      (readable_joinFor hnow hdepth guest "@v:b") host).mono (by decide)
  have hask : ((JoinAnswer.request "a" firstJoin).ask guest.identity [("a", "http://a")]
      (some accepted)).1 = .ok (host.joinAnswer createdRoom firstJoin) :=
    toRoot_sendJoin.ask_ok hreadable
  obtain ⟨r, hcomplete, -⟩ :=
    completeJoin_ok (p := guest) (r := createdRoom) settled_createdRoom stateEvent?_createdRoom
      (fun e he => (createdRoom_events e he).1) hparse rfl (by decide) hask
  have hjoin := (join_of_prepareJoin prepareJoin_proposed).trans hcomplete
  obtain ⟨version, join, body, answer, state, chain, recorded, -, hprepared, hbody, hanswer, hread,
    -, -, hiff⟩ := join_records_iff hjoin
  -- what was sent and what was given back are both the first join
  obtain ⟨rfl, rfl⟩ := Prod.mk.inj (Except.ok.inj (hprepared.symm.trans prepareJoin_proposed))
  obtain rfl := Except.ok.inj (hbody.symm.trans hask)
  obtain rfl := Except.ok.inj (hanswer.symm.trans (read_membershipAnswer host "a" _))
  obtain rfl := Except.ok.inj ((hread.given _ rfl).symm.trans hparse)
  refine ⟨r, hjoin, hiff.mpr ⟨rfl, ?_⟩⟩
  have hfields : firstJoin.fields = createdRoom.memberFields "@v:b" "join" 2 := rfl
  obtain ⟨-, -, -, -, hplace, hmember⟩ := Room.memberFields_spec hfields
  rw [if_pos hplace]
  exact hmember

/-! ### Another event given back -/

/-- An answer to the first join that gives back the creation of the room. -/
def swappedAnswer : Json :=
  host.membershipAnswer .join ⟨host.identity.signEvent creation, createdRoom.currentState, [], []⟩

/-- What the guest gets with that answer. -/
def swapped : Reply := (PeerAnswer.served swappedAnswer).reply "PUT"

theorem mem_createdRoom : host.identity.signEvent creation ∈ createdRoom.events := by
  rw [events_createdRoom]
  exact List.mem_singleton_self _

theorem readable_swappedAnswer : swappedAnswer.Readable Json.maxDepth :=
  (readable_membershipAnswer (fun e he => (createdRoom_events e he).2) (List.forall_mem_nil _)
    (createdRoom_events _ mem_createdRoom).2 [] host).mono (by decide)

/-- The guest takes the answer, and its room has no other tip than the creation and the state that
it was given. -/
theorem join_swapped : ∃ r, (guest.join [("a", "http://a")] 2 "a" "!r:a" "@v:b"
      [proposed, swapped]).1 = .ok (r, guest.holdRoom r) ∧
    r.forwardExtremities = [creationId] ∧
    r.state = (createdRoom.setState (host.identity.signEvent creation)).state := by
  obtain ⟨r, hcomplete, -, hstate, htips, -⟩ :=
    completeJoin_current (p := guest) (r := createdRoom) settled_createdRoom stateEvent?_createdRoom
      (fun e he => (createdRoom_events e he).1) (List.forall_mem_nil _)
      (createdRoom_events _ mem_createdRoom).1 rfl (by decide)
      (toRoot_sendJoin.ask_ok readable_swappedAnswer)
  rw [id_creation] at htips
  exact ⟨r, (join_of_prepareJoin prepareJoin_proposed).trans hcomplete, htips, hstate⟩

/-- The guest has sent its join, and its room says neither that its user joined nor that the join is
the tip of the room. -/
theorem join_records_creation : ∃ r,
    (guest.join [("a", "http://a")] 2 "a" "!r:a" "@v:b" [proposed, swapped]).1 =
      .ok (r, guest.holdRoom r) ∧
    (∃ sent, (guest.join [("a", "http://a")] 2 "a" "!r:a" "@v:b"
        [proposed, swapped]).2.getLast? = some sent ∧
      sent.method = "PUT" ∧ sent.body = some firstJoin.json) ∧
    r.forwardExtremities ≠ [firstJoin.id] ∧ r.membership "@v:b" ≠ some "join" := by
  obtain ⟨r, hjoin, htips, hstate⟩ := join_swapped
  obtain ⟨version, join, -, -, -, -, -, hprepared, hsent, -⟩ := join_cases hjoin
  cases hprepared.symm.trans prepareJoin_proposed
  refine ⟨r, hjoin, hsent, ?_, ?_⟩
  · rw [htips, id_firstJoin]
    decide
  · have hcreation : (host.identity.signEvent creation).place? = some .create := rfl
    have hfind : Table.find? (.member "@v:b") r.state = none := by
      rw [hstate, Room.state_setState, hcreation]
      simp only [Table.find?_insert]
      rfl
    unfold Room.membership Room.stateEvent?
    rw [hfind, Option.bind_none, Option.bind_none]
    exact (Option.some_ne_none "join").symm

end Peer

end Homeserver
