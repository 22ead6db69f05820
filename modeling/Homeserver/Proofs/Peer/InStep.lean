/-
Peers that follow a room of another server. A peer that holds a room in step with that one takes
each event that is issued there, however the events are split into transactions, and its room stays
in step.
-/
import Homeserver.Proofs.Peer.Join
import Homeserver.Proofs.Peer.Transaction
import Homeserver.Proofs.Room.InStep

namespace Homeserver.Peer

open Room (InStep IssuedAll)

/-! ## Single events -/

theorem acceptPdu_ok {p : Peer} {s next : Room} (hheld : p.room? s.roomId = some s) {e : Event}
    (hparse : Event.ofPdu s.version e.json = .ok e) (hadd : s.addEvent e = .ok next) :
    p.reportId e.json = e.id ∧ p.acceptPdu e.json = .ok ((p.holdRoom next).seePdu e) := by
  obtain ⟨hfits, -⟩ := Room.addEvent_ok.mp hadd
  have hroom : p.roomOf e.json = some s := by
    rw [roomOf, roomIdOf_of_ofPdu hparse, Option.bind_some, hfits.room, hheld]
  have hversion : p.versionFor e.json = s.version := by rw [versionFor, hroom]
  constructor
  · obtain ⟨m, hm⟩ := Event.obj_of_ofPdu hparse
    rw [hm] at hparse
    obtain ⟨_, -, -, -, -, he⟩ := Event.ofPdu_ok.mp hparse
    rw [reportId, hversion, hm]
    exact (congrArg Event.id he).symm
  · unfold acceptPdu appendNew
    simp only [hversion, hparse, hroom, hfits.new, hadd, bind, Except.bind, Bool.false_eq_true,
      if_false, pure, Except.pure]

/-- A peer holds a room in step with another one, and has not recorded these events there. -/
def Follows (p : Peer) (r : Room) (l : List Event) : Prop :=
  ∃ s, p.room? r.roomId = some s ∧ InStep r s ∧ ∀ e ∈ l, s.contains e.id = false

/-- A peer that follows a room accepts the next event that is issued there, and goes on following
it. -/
theorem Follows.takePdu {p : Peer} {r last : Room} {e : Event} {l : List Event}
    (hp : p.Follows r (e :: l)) (h : IssuedAll r (e :: l) last)
    (o : TransactionOutcome EventError) :
    ∃ next q, takePdu (o, p) e.json = .ok (Table.insert e.id (.ok ()) o, q) ∧
      IssuedAll next l last ∧ q.Follows next l := by
  obtain ⟨s, hheld, hstep, hnew⟩ := hp
  have hrest := h.new_append hnew
  cases h with
  | cons head tail =>
    obtain ⟨hadd, hnext⟩ := hstep.addEvent head (hnew e List.mem_cons_self)
    have hparse : Event.ofPdu s.version e.json = .ok e := by rw [hstep.version_eq, head.parsed]
    rw [← hstep.roomId_eq] at hheld
    obtain ⟨hid, haccept⟩ := acceptPdu_ok hheld hparse hadd
    obtain ⟨m, hm⟩ := Event.obj_of_ofPdu hparse
    have hobject : e.json.isObject = true := by rw [hm]; rfl
    refine ⟨_, (p.holdRoom (s.append e)).seePdu e, ?_, tail, s.append e, ?_, hnext, hrest⟩
    · rw [takePdu_eq, if_neg (Bool.eq_false_iff.mp (not_breaksOff_of_accepted haccept)), enter,
        if_pos hobject, hid, report, haccept, afterPdu_of_accepted hobject haccept]
      rfl
    · show (p.holdRoom (s.append e)).room? _ = _
      rw [room?_holdRoom, if_pos hnext.roomId_eq]

/-! ## Transactions -/

/-- What is reported if these events are accepted and there are no others. -/
def allAccepted (l : List Event) : TransactionOutcome EventError :=
  Table.ofList (l.map fun e => (e.id, .ok ()))

theorem Follows.foldlM_takePdu {p : Peer} {r last : Room} {l rest : List Event}
    (hp : p.Follows r (l ++ rest)) (h : IssuedAll r (l ++ rest) last)
    (o : TransactionOutcome EventError) :
    ∃ next q, (l.map Event.json).foldlM Peer.takePdu (o, p) =
        .ok ((l.map fun e => (e.id, .ok ())).foldl (fun t row => Table.insert row.1 row.2 t) o, q) ∧
      IssuedAll next rest last ∧ q.Follows next rest := by
  induction l generalizing p r o with
  | nil => exact ⟨r, p, rfl, h, hp⟩
  | cons e l ih =>
    obtain ⟨next, q, htake, hissued, hq⟩ := hp.takePdu h o
    obtain ⟨last, final, hfold, hlast⟩ := ih hq hissued (Table.insert e.id (.ok ()) o)
    refine ⟨last, final, ?_, hlast⟩
    rw [List.map_cons, List.foldlM_cons, htake]
    exact hfold

theorem Follows.takeTransaction {p : Peer} {r last : Room} {l rest : List Event}
    (hp : p.Follows r (l ++ rest)) (h : IssuedAll r (l ++ rest) last) (edus : List Json) :
    ∃ next q, p.takeTransaction (l.map Event.json) edus = (some (allAccepted l), q) ∧
      IssuedAll next rest last ∧ q.Follows next rest := by
  obtain ⟨next, q, hfold, hissued, hq⟩ := hp.foldlM_takePdu h []
  refine ⟨next, { q with edus := q.edus ++ edus }, ?_, hissued, hq⟩
  unfold Peer.takeTransaction
  rw [hfold]
  rfl

/-- Takes transactions one after the other, and gives what is reported of each. -/
def takeTransactions (p : Peer) :
    List (List Json × List Json) → List (Option (TransactionOutcome EventError)) × Peer
  | [] => ([], p)
  | (pdus, edus) :: rest =>
    let (outcome, next) := p.takeTransaction pdus edus
    let (outcomes, last) := next.takeTransactions rest
    (outcome :: outcomes, last)

/-- However the issued events are split into transactions, each of these is accepted as a whole, and
the peer ends with a room in step with the one where they were issued. -/
theorem Follows.takeTransactions {p : Peer} {r last : Room} {parts : List (List Event × List Json)}
    (hp : p.Follows r (parts.map Prod.fst).flatten)
    (h : IssuedAll r (parts.map Prod.fst).flatten last) :
    ∃ q, p.takeTransactions (parts.map fun part => (part.1.map Event.json, part.2)) =
        (parts.map fun part => some (allAccepted part.1), q) ∧ q.Follows last [] := by
  induction parts generalizing p r with
  | nil =>
    cases h
    exact ⟨p, rfl, hp⟩
  | cons part parts ih =>
    obtain ⟨next, q, htake, hissued, hq⟩ := hp.takeTransaction h part.2
    obtain ⟨final, hrest, hfinal⟩ := ih hq hissued
    refine ⟨final, ?_, hfinal⟩
    rw [List.map_cons, Peer.takeTransactions]
    simp only [htake, hrest]
    rfl

/-- A peer stays in step with a room of another server. Say that it holds a room in step with that
one, in which events of ordinary templates are appended, whose depths and times are safe integers
and which the peer has not recorded. If their JSON is delivered to it in that order, however it is
split into transactions, each event is reported as accepted, and the room that the peer then holds
is in step again. -/
theorem transactions_keep_inStep {p : Peer} {r s last : Room} {identity : Identity}
    {calls : List (Int × EventTemplate)} {made : List Event}
    {parts : List (List Event × List Json)}
    (hheld : p.room? r.roomId = some s) (hstep : InStep r s)
    (hcalls : ∀ call ∈ calls, call.2.Ordinary)
    (hmade : r.createEach identity calls = .ok (made, last))
    (hsafe : ∀ e ∈ made, Json.Safe e.depth ∧ Json.Safe e.timestamp)
    (hnew : ∀ e ∈ made, s.contains e.id = false)
    (hparts : (parts.map Prod.fst).flatten = made) :
    ∃ q s', p.takeTransactions (parts.map fun part => (part.1.map Event.json, part.2)) =
        (parts.map fun part => some (Table.ofList (part.1.map fun e => (e.id, .ok ()))), q) ∧
      q.room? r.roomId = some s' ∧ InStep last s' := by
  subst hparts
  have hissued := Room.issuedAll_of_createEach hcalls hmade hsafe
  obtain ⟨q, htake, s', hheld', hstep', -⟩ :=
    Follows.takeTransactions ⟨s, hheld, hstep, hnew⟩ hissued
  exact ⟨q, s', htake, hissued.roomId_eq ▸ hheld', hstep'⟩

/-! ### A message after a join -/

/-- The host's room after the first join, with the ids of its events written out. -/
def joinedRoom : Room :=
  ((Room.new "!r:a" .default).append
    ⟨creationId, .default, creationFields, (host.identity.signEvent creation).json⟩).append
    ⟨"$Ld5KColB_8z_5EfcbQb7QRytY8-YpXTVWlQvVBG1csA", .default, firstFields, firstJoin.json⟩

theorem joinedRoom_eq : createdRoom.append firstJoin = joinedRoom := by
  unfold joinedRoom
  rw [← id_creation, ← id_firstJoin, ← memberFields_createdRoom]
  rfl

def greeting : EventTemplate :=
  (EventTemplate.message "m.room.message" "@u:a" (.obj [("body", .str "hi")])).atTime 3

def greetingFields : EventFields :=
  ⟨"!r:a", "@u:a", "m.room.message", none, .obj [("body", .str "hi")],
    ["$Ld5KColB_8z_5EfcbQb7QRytY8-YpXTVWlQvVBG1csA"], [creationId], 3, 3⟩

def greetingEvent : Event :=
  host.identity.signEvent ⟨.default, greetingFields, Room.protoOf .default greetingFields "a"⟩

theorem id_greetingEvent : greetingEvent.id = "$TsAuhHJXUi1gW83cXzt7b0-fHFw1TreMflEU8dFyX80" := by
  have hhash : contentHash (.obj (Room.protoOf .default greetingFields "a")) =
      "beBHVe6bFukGfoErRCMlweFzpQSywS6DRtExpQgA0Ls" := by
    rw [contentHash_eq]
    decide +kernel
  have hid := Identity.id_signEvent
    (u := ⟨.default, greetingFields, Room.protoOf .default greetingFields "a"⟩)
    (Room.sorted_protoOf .default greetingFields "a") host.identity hhash
  rw [eventId_eq] at hid
  exact hid.trans (by decide +kernel)

theorem createEach_greeting : joinedRoom.createEach host.identity [(3, greeting)] =
    .ok ([greetingEvent], joinedRoom.append greetingEvent) := by
  have hbuild : joinedRoom.build "a" 3 greeting =
      .ok ⟨.default, greetingFields, Room.protoOf .default greetingFields "a"⟩ := rfl
  have hnamed : greetingEvent = ⟨"$TsAuhHJXUi1gW83cXzt7b0-fHFw1TreMflEU8dFyX80", .default,
      greetingFields, greetingEvent.json⟩ := by
    rw [← id_greetingEvent]
    rfl
  have hadd : joinedRoom.addEvent greetingEvent = .ok (joinedRoom.append greetingEvent) := by
    rw [hnamed]
    rfl
  have hcreate : joinedRoom.createAndAdd host.identity 3 greeting =
      .ok (greetingEvent, joinedRoom.append greetingEvent) :=
    bind_ok.mpr ⟨_, hbuild, bind_ok.mpr ⟨_, hadd, rfl⟩⟩
  exact bind_ok.mpr ⟨_, hcreate, rfl⟩

/-- The host sends a message to the guest that has joined its room. -/
theorem transactions_keep_inStep_greeting : ∃ joined q s',
    Room.ofRemoteJoin .default "!r:a" createdRoom.currentState [] firstJoin = .ok joined ∧
    (guest.holdRoom joined).takeTransactions [([], []), ([greetingEvent.json], [])] =
      ([some [], some [(greetingEvent.id, .ok ())]], q) ∧
    q.room? "!r:a" = some s' ∧ InStep (joinedRoom.append greetingEvent) s' := by
  have hroom : firstJoin.roomId = createdRoom.roomId := rfl
  obtain ⟨joined, hjoined, hstep⟩ := settled_createdRoom.inStep_join stateEvent?_createdRoom
    (List.forall_mem_nil _) hroom rfl (by decide)
  have hnew : joined.contains greetingEvent.id = false := by
    refine Bool.eq_false_iff.mpr fun hheld => ?_
    obtain ⟨e, he, hid⟩ := List.mem_map.mp ((Room.contains_ofRemoteJoin hjoined).mp hheld)
    rw [List.append_nil, List.mem_append, List.mem_singleton] at he
    rw [id_greetingEvent] at hid
    rcases he with he | rfl
    · rw [id_of_mem_createdRoom (Room.mem_currentState he)] at hid
      exact absurd hid (by decide)
    · rw [id_firstJoin] at hid
      exact absurd hid (by decide)
  rw [joinedRoom_eq] at hstep
  have hheld : (guest.holdRoom joined).room? joinedRoom.roomId = some joined := by
    rw [room?_holdRoom, if_pos hstep.roomId_eq]
  have hthree : Json.Safe 3 := ⟨by decide, by decide⟩
  have hordinary : greeting.Ordinary :=
    ⟨EventTemplate.Sound.atTime (EventTemplate.sound_message _ _ _) 3, rfl, by decide⟩
  have hparts : (([([], []), ([greetingEvent], [])] : List (List Event × List Json)).map
      Prod.fst).flatten = [greetingEvent] := rfl
  obtain ⟨q, s', htake, hq, hlast⟩ := transactions_keep_inStep hheld hstep
    (List.forall_mem_singleton.mpr hordinary) createEach_greeting
    (List.forall_mem_singleton.mpr ⟨hthree, hthree⟩) (List.forall_mem_singleton.mpr hnew) hparts
  exact ⟨joined, q, s', hjoined, htake, hq, hlast⟩

end Homeserver.Peer
