/-
Joins of rooms that the peer may hold already. A join makes the room anew of what the other server
answers, and the peer holds it in place of the one that it held; so of what that one had recorded
there stays what the answer brings along again, and no more.
-/
import Homeserver.Proofs.Peer.Countersigned

namespace Homeserver

namespace Peer

/-! ## What a join brings along -/

/-- The peer holds the room, and has recorded an event with this id in it. -/
def hasRecorded (p : Peer) (roomId id : String) : Bool := (p.room? roomId).any (·.contains id)

theorem hasRecorded_holdRoom (p : Peer) (r : Room) (roomId id : String) :
    (p.holdRoom r).hasRecorded roomId id =
      if r.roomId = roomId then r.contains id else p.hasRecorded roomId id := by
  unfold hasRecorded
  rw [room?_holdRoom]
  split <;> rfl

/-- What is recorded after a successful join. Other rooms are as they were. The room that was asked
for has recorded the state, what authorises it and the recorded event of the answer, and nothing
else; so all that was recorded before stays iff the answer brings along what the peer had recorded
in that room. -/
theorem join_keeps_iff {p next : Peer} {destinations : Destinations} {now : Int}
    {destination roomId user : String} {replies : List Reply} {r : Room}
    (h : (p.join destinations now destination roomId user replies).1 = .ok (r, next)) :
    ∃ version join body answer state chain recorded,
      (p.prepareJoin destinations now destination roomId user replies[0]?).1 = .ok (version, join) ∧
      ((JoinAnswer.request destination join).ask p.identity destinations replies[1]?).1 = .ok body ∧
      JoinAnswer.read destination body = .ok answer ∧
      answer.ReadAs version join state chain recorded ∧
      next.room? roomId = some r ∧
      (∀ other, other ≠ roomId → next.room? other = p.room? other) ∧
      (∀ id, next.hasRecorded roomId id = true ↔
        id ∈ (state ++ chain ++ [recorded]).map Event.id) ∧
      ((∀ room id, p.hasRecorded room id = true → next.hasRecorded room id = true) ↔
        ∀ id, p.hasRecorded roomId id = true →
          id ∈ (state ++ chain ++ [recorded]).map Event.id) := by
  obtain ⟨version, join, body, answer, state, chain, recorded, hprepared, -, hbody, hanswer, hread,
    hroom, rfl⟩ := join_cases h
  have hid := Room.roomId_ofRemoteJoin hroom
  have hasked (id : String) : (p.holdRoom r).hasRecorded roomId id = true ↔
      id ∈ (state ++ chain ++ [recorded]).map Event.id := by
    rw [hasRecorded_holdRoom, if_pos hid]
    exact Room.contains_ofRemoteJoin hroom
  refine ⟨version, join, body, answer, state, chain, recorded, hprepared, hbody, hanswer, hread,
    ?_, fun other hother => ?_, hasked, fun hall id hrec => ?_, fun hall room id hrec => ?_⟩
  · rw [room?_holdRoom, if_pos hid]
  · rw [room?_holdRoom, if_neg fun he => hother (he.symm.trans hid)]
  · exact (hasked id).mp (hall roomId id hrec)
  · by_cases hother : room = roomId
    · subst hother
      exact (hasked id).mpr (hall id hrec)
    · rw [hasRecorded_holdRoom, if_neg fun he => hother (he.symm.trans hid)]
      exact hrec

/-- The host accepts the guest's first join, and the guest records it. -/
theorem join_accepted : ∃ r, (guest.join [("a", "http://a")] 2 "a" "!r:a" "@v:b"
      [proposed, accepted]).1 = .ok (r, guest.holdRoom r) ∧
    r.roomId = "!r:a" ∧ r.contains firstJoin.id = true := by
  have hnow : Json.Safe 2 := ⟨by decide, by decide⟩
  have hdepth : Json.Safe (createdRoom.depth + 1) := hnow
  have hparse : Event.ofPdu .default firstJoin.json = .ok firstJoin :=
    ofPdu_joinFor hnow hdepth guest "@v:b"
  have hreadable : (host.joinAnswer createdRoom firstJoin).Readable Json.maxDepth :=
    (readable_joinAnswer (fun e he => (createdRoom_events e he).2)
      (readable_joinFor hnow hdepth guest "@v:b") host).mono (by decide)
  obtain ⟨r, hcomplete, hid, -, -, -, hevent⟩ :=
    completeJoin_ok (p := guest) (r := createdRoom) settled_createdRoom stateEvent?_createdRoom
      (fun e he => (createdRoom_events e he).1) hparse rfl (by decide)
      (toRoot_sendJoin.ask_ok hreadable)
  refine ⟨r, (join_of_prepareJoin prepareJoin_proposed).trans hcomplete, hid, ?_⟩
  unfold Room.contains
  rw [hevent]
  rfl

/-- The guest's first join of a room loses nothing. -/
theorem join_keeps_iff_firstJoin : ∃ r, (guest.join [("a", "http://a")] 2 "a" "!r:a" "@v:b"
      [proposed, accepted]).1 = .ok (r, guest.holdRoom r) ∧
    ∀ room id, guest.hasRecorded room id = true → (guest.holdRoom r).hasRecorded room id = true := by
  obtain ⟨r, hjoin, -⟩ := join_accepted
  obtain ⟨_, _, _, _, _, _, _, -, -, -, -, -, -, -, hiff⟩ := join_keeps_iff hjoin
  exact ⟨r, hjoin, hiff.mpr fun id h => (nomatch h)⟩

/-! ### A second join -/

/-- The rooms that a peer holds do not count for what it makes of a join. -/
theorem join_holdRoom {p : Peer} {destinations : Destinations} {now : Int}
    {destination roomId user : String} {replies : List Reply} {r : Room}
    (h : (p.join destinations now destination roomId user replies).1 = .ok (r, p.holdRoom r))
    (held : Room) :
    ((p.holdRoom held).join destinations now destination roomId user replies).1 =
      .ok (r, (p.holdRoom held).holdRoom r) := by
  have hprepare : (p.holdRoom held).prepareJoin destinations now destination roomId user replies[0]? =
      p.prepareJoin destinations now destination roomId user replies[0]? := rfl
  unfold Peer.join at h ⊢
  rw [hprepare]
  cases hprepared : p.prepareJoin destinations now destination roomId user replies[0]? with
  | mk made asked =>
    rw [hprepared] at h
    cases made with
    | error e => cases h
    | ok made =>
      obtain ⟨version, join⟩ := made
      obtain ⟨body, hbody, h⟩ := bind_ok.mp h
      obtain ⟨answer, hanswer, h⟩ := bind_ok.mp h
      obtain ⟨joined, hjoined, h⟩ := bind_ok.mp h
      cases h
      exact bind_ok.mpr ⟨body, hbody, bind_ok.mpr ⟨answer, hanswer, bind_ok.mpr ⟨_, hjoined, rfl⟩⟩⟩

/-- What is read of an answer that is made of events of a room are these events. -/
theorem mem_of_readAs {r : Room} (hevents : ∀ e ∈ r.events, Event.ofPdu r.version e.json = .ok e)
    {given join recorded : Event} (hgiven : given ∈ r.events) {state chain : List Event}
    (hread : JoinAnswer.ReadAs ⟨r.currentState.map Event.json, [], some given.json⟩ r.version join
      state chain recorded) : ∀ e ∈ state ++ chain ++ [recorded], e ∈ r.events := by
  have hstate : (r.currentState.map Event.json).mapM (Event.ofPdu r.version) =
      .ok r.currentState :=
    mapM_map_ok fun e he => hevents e (Room.mem_currentState he)
  obtain rfl := Except.ok.inj (hread.state.symm.trans hstate)
  obtain rfl : chain = [] := (Except.ok.inj hread.chain).symm
  obtain rfl := Except.ok.inj ((hread.given _ rfl).symm.trans (hevents given hgiven))
  intro e he
  rw [List.append_nil, List.mem_append, List.mem_singleton] at he
  rcases he with he | rfl
  · exact Room.mem_currentState he
  · exact hgiven

/-- With the other answer, nothing is recorded but the creation of the room. -/
theorem contains_of_swapped {r : Room} (h : (guest.join [("a", "http://a")] 2 "a" "!r:a" "@v:b"
    [proposed, swapped]).1 = .ok (r, guest.holdRoom r)) {id : String}
    (hid : r.contains id = true) : id = creationId := by
  obtain ⟨version, join, body, answer, state, chain, recorded, hprepared, -, hbody, hanswer, hread,
    hroom, -⟩ := join_cases h
  obtain ⟨rfl, rfl⟩ := Prod.mk.inj (Except.ok.inj (hprepared.symm.trans prepareJoin_proposed))
  obtain rfl := Except.ok.inj
    (hbody.symm.trans (toRoot_sendJoin.ask_ok readable_swappedAnswer))
  obtain rfl := Except.ok.inj (hanswer.symm.trans (read_membershipAnswer host "a" _))
  obtain ⟨e, he, rfl⟩ := List.mem_map.mp ((Room.contains_ofRemoteJoin hroom).mp hid)
  dsimp only at hread
  exact id_of_mem_createdRoom (mem_of_readAs (r := createdRoom)
    (fun e he => (createdRoom_events e he).1) mem_createdRoom hread e he)

/-- The guest joins once, and once more with the other answer; its first join is then lost. -/
theorem join_loses_firstJoin : ∃ first second,
    (guest.join [("a", "http://a")] 2 "a" "!r:a" "@v:b" [proposed, accepted]).1 =
      .ok (first, guest.holdRoom first) ∧
    ((guest.holdRoom first).join [("a", "http://a")] 2 "a" "!r:a" "@v:b" [proposed, swapped]).1 =
      .ok (second, (guest.holdRoom first).holdRoom second) ∧
    (guest.holdRoom first).hasRecorded "!r:a" firstJoin.id = true ∧
    ((guest.holdRoom first).holdRoom second).hasRecorded "!r:a" firstJoin.id = false := by
  obtain ⟨first, hfirst, hid, hrecorded⟩ := join_accepted
  obtain ⟨second, hsecond, -⟩ := join_swapped
  have hanswered := join_holdRoom hsecond first
  obtain ⟨_, _, _, _, _, _, _, -, -, -, -, -, hroom, -⟩ := join_cases hanswered
  refine ⟨first, second, hfirst, hanswered, ?_, ?_⟩
  · rw [hasRecorded_holdRoom, if_pos hid, hrecorded]
  · rw [hasRecorded_holdRoom, if_pos (Room.roomId_ofRemoteJoin hroom)]
    refine Bool.eq_false_iff.mpr fun hlost => ?_
    have hsame := contains_of_swapped hsecond hlost
    rw [id_firstJoin] at hsame
    exact absurd hsame (by decide)

end Peer

end Homeserver
