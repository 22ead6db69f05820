/-
Answers to joins can be understood without the room. With the state the other server is given the
chain that authorises it, and the join may be authorised by more than the state is; so the chain
starts from what the state and the join name, in the room as it was before the join. It is closed
there: whatever is named and recorded is sent.
-/
import Homeserver.Proofs.Peer.Race

namespace Homeserver.Peer

theorem mem_authorisingIds {id : String} {state : List Event} {e : Event} :
    id ∈ authorisingIds state e ↔ id ∈ (state ++ [e]).flatMap Event.authEvents :=
  KeySet.mem_ofList

/-- An answer to a join that holds the state of a room, and with it all that the room has recorded
of what authorises the state and the join. -/
structure SelfContained (r : Room) (join : Event) (answer : Json) (chain : List Event) : Prop where
  event : answer.get? "event" = some join.json
  state : answer.get? "state" = some (.arr (r.currentState.map Event.json))
  authChain : answer.get? "auth_chain" = some (.arr (chain.map Event.json))
  covers : r.Covers chain (r.currentState ++ [join] ++ chain)
  reached : ∀ e ∈ chain, r.Authorises ((r.currentState ++ [join]).flatMap Event.authEvents) e
  nodup : (chain.map Event.id).Nodup

theorem selfContained_joinAnswer (p : Peer) (r : Room) (join : Event) :
    SelfContained r join (p.joinAnswer r join)
      (r.authChain (authorisingIds r.currentState join)) := by
  obtain ⟨hevent, hstate, hchain⟩ := get?_membershipAnswer p ⟨join, r.currentState,
    r.authChain (authorisingIds r.currentState join), r.strippedState⟩
  refine ⟨hevent, hstate, hchain, Room.covers_authChain fun e he id hid => ?_, fun e he => ?_,
    Room.nodup_authChain r _⟩
  · exact mem_authorisingIds.mpr (List.mem_flatMap.mpr ⟨e, he, hid⟩)
  · exact (Room.mem_authChain_iff.mp he).mono fun id => mem_authorisingIds.mp

/-- Whatever join a peer accepts, its answer is self-contained: it holds the current state of the
room as it was when the join came in, and every recorded event that the join, the state or an event
of the chain names as its authorisation is in the chain, which holds nothing else. -/
theorem receive_join_selfContained {routes : Routes} {p : Peer} {q : Inbound}
    {roomId eventId : String} (hpath : Reaches routes q (.accept .join) [roomId, eventId])
    (hstatus : (p.receive routes q).1.status = 200) :
    ∃ r join answer chain, p.room? roomId = some r ∧ q.body = some join.json ∧
      Event.ofPdu r.version join.json = .ok join ∧ join.id = eventId ∧
      r.addEvent join = .ok (r.append join) ∧
      p.receive routes q = (.served answer, p.holdRoom (r.append join)) ∧
      SelfContained r join answer chain := by
  obtain ⟨a, next, haccept, hanswer⟩ := accepted_of_status hpath hstatus
  obtain ⟨r, s, hheld, hread, hadd, rfl, ha⟩ := acceptMembership_spec haccept
  obtain ⟨pdu, hbody, hparse, hid, -⟩ := readMembership_ok hread
  obtain ⟨rfl, -⟩ := Event.json_of_ofPdu hparse
  obtain ⟨-, -, rfl⟩ := Room.addEvent_ok.mp hadd
  have hserved : p.membershipAnswer .join a = p.joinAnswer r a.event :=
    congrArg (p.membershipAnswer .join) ha
  rw [hserved] at hanswer
  exact ⟨r, a.event, _, _, hheld, hbody, hparse, hid, hadd, hanswer,
    selfContained_joinAnswer p r a.event⟩

/-- The host answers the first join with the creation of the room as its state. -/
theorem receive_firstJoin_selfContained :
    let routes := Routes.ofBundles [.join]
    Reaches routes sending (.accept .join) ["!r:a", firstJoin.id] ∧
      ((host.holdRoom createdRoom).receive routes sending).1.status = 200 ∧
      ∃ answer chain, ((host.holdRoom createdRoom).receive routes sending).1 = .served answer ∧
        SelfContained createdRoom firstJoin answer chain := by
  intro routes
  have hpath := submits_firstJoin.path
  have hstatus : ((host.holdRoom createdRoom).receive routes sending).1.status = 200 := by
    obtain ⟨v, hreceive⟩ := receive_submitted settled_createdRoom madeOn_firstJoin
      submits_firstJoin room?_host
    rw [hreceive]
    rfl
  refine ⟨hpath, hstatus, ?_⟩
  obtain ⟨r, join, answer, chain, hheld, hbody, hparse, -, -, hanswer, hself⟩ :=
    receive_join_selfContained hpath hstatus
  cases room?_host.symm.trans hheld
  -- the body tells the event that is read of it
  have hjson : firstJoin.json = join.json := Option.some.inj hbody
  have hread := (madeOn_firstJoin.spec settled_createdRoom).2.2.2.1
  rw [hjson] at hread
  cases Except.ok.inj (hread.symm.trans hparse)
  exact ⟨answer, chain, congrArg Prod.fst hanswer, hself⟩

end Homeserver.Peer
