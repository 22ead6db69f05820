/-
What a peer sees of a transaction. It sees the events that it accepts, in their order: those that
name no held room, and those that their room has recorded or appends. An event that its room refuses
is not seen, nor is one that breaks off or stands behind it, so a peer sees all events of a
transaction iff each room takes those that name it at their turn.
-/
import Homeserver.Proofs.Lists
import Homeserver.Proofs.Peer.InStep
import Homeserver.Proofs.Peer.Separation

namespace Homeserver

/-- Whether a room takes an event: it has recorded the event, or it appends it. -/
def Room.takes (r : Room) (e : Event) : Bool := r.contains e.id || (r.addEvent e).isOk

namespace Peer

/-! ## Single entries -/

/-- The event of an entry, if it is one under the version that the peer selects for it. -/
def read? (p : Peer) (pdu : Json) : Option Event := (Event.ofPdu (p.versionFor pdu) pdu).toOption

/-- The event of an entry, unless the entry names a held room that does not take the event. -/
def seen? (p : Peer) (pdu : Json) : Option Event :=
  (p.read? pdu).filter fun e => (p.roomOf pdu).all fun r => r.takes e

section

variable {p : Peer} {pdu : Json}

theorem read?_of_held {r : Room} (h : p.roomOf pdu = some r) :
    p.read? pdu = (Event.ofPdu r.version pdu).toOption := by
  rw [read?, versionFor, h]

theorem read?_afterPdu (p : Peer) (pdu : Json) : (p.afterPdu pdu).read? = p.read? := by
  funext other
  rw [read?, read?, (sameVersions_afterPdu p pdu).versionFor]

theorem seen?_of_held {r : Room} (h : p.roomOf pdu = some r) {e : Event}
    (he : Event.ofPdu r.version pdu = .ok e) :
    p.seen? pdu = if r.takes e then some e else none := by
  rw [seen?, read?_of_held h, he, h]
  cases htakes : r.takes e <;> simp [Except.toOption, Option.filter, htakes]

theorem seen?_of_unheld (h : p.roomOf pdu = none) : p.seen? pdu = p.read? pdu := by
  rw [seen?, h]
  cases p.read? pdu <;> rfl

theorem read?_eq_none (h : pdu.isObject = false) : p.read? pdu = none := by
  cases pdu with
  | obj m => cases h
  | _ => rfl

/-- What breaks off is an event that its room does not take. -/
theorem seen?_of_breaksOff (h : p.breaksOff pdu = true) :
    ∃ e, p.read? pdu = some e ∧ p.seen? pdu = none := by
  obtain ⟨r, hroom⟩ := roomOf_of_breaksOff h
  obtain ⟨e, he, hdeep⟩ := (breaksOff_of_held hroom).mp h
  have htakes : r.takes e = false := by
    rw [Room.takes, (Room.checkNew_ok.mp hdeep.1).2.1, Room.addEvent_overflow_iff.mpr hdeep]
    rfl
  refine ⟨e, ?_, ?_⟩
  · rw [read?_of_held hroom, he]
    rfl
  · rw [seen?_of_held hroom he, htakes]
    rfl

/-- An entry adds its event to what the peer has seen, unless its room does not take the event. -/
theorem pdus_afterPdu (p : Peer) (pdu : Json) :
    (p.afterPdu pdu).pdus = p.pdus ++ (p.seen? pdu).toList := by
  cases hroom : p.roomOf pdu with
  | none =>
    have haccept := acceptPdu_of_unheld hroom
    rw [seen?_of_unheld hroom]
    by_cases hobject : pdu.isObject = true
    · cases he : Event.ofPdu (p.versionFor pdu) pdu with
      | error err =>
        rw [he] at haccept
        rw [afterPdu_of_rejected hobject haccept, read?, he]
        exact (List.append_nil _).symm
      | ok e =>
        rw [he] at haccept
        rw [afterPdu_of_accepted hobject haccept, read?, he]
        rfl
    · rw [read?_eq_none (Bool.eq_false_iff.mpr hobject), afterPdu, if_neg hobject]
      exact (List.append_nil _).symm
  | some r =>
    rcases afterPdu_of_held r pdu with ⟨err, he, hafter⟩ | ⟨e, err, he, hadd, hnew, hafter⟩ |
      ⟨e, he, hold, hafter⟩ | ⟨e, s, he, hadd, hafter⟩
    · rw [hafter p hroom, seen?, read?_of_held hroom, he]
      exact (List.append_nil _).symm
    · have htakes : r.takes e = false := by
        rw [Room.takes, hnew, hadd]
        rfl
      rw [hafter p hroom, seen?_of_held hroom he, htakes]
      exact (List.append_nil _).symm
    · have htakes : r.takes e = true := by rw [Room.takes, hold, Bool.true_or]
      rw [hafter p hroom, seen?_of_held hroom he, htakes]
      rfl
    · have htakes : r.takes e = true := by
        rw [Room.takes, hadd]
        exact Bool.or_true _
      rw [hafter p hroom, seen?_of_held hroom he, htakes]
      rfl

end

/-! ## Transactions -/

/-- The events of these entries that the peer sees. -/
def seen (p : Peer) : List Json → List Event
  | [] => []
  | pdu :: rest =>
    if p.breaksOff pdu then [] else (p.seen? pdu).toList ++ (p.afterPdu pdu).seen rest

theorem seen_cons_of_breaksOff {p : Peer} {pdu : Json} (h : p.breaksOff pdu = true)
    (pdus : List Json) : p.seen (pdu :: pdus) = [] := if_pos h

theorem seen_cons {p : Peer} {pdu : Json} (h : p.breaksOff pdu = false) (pdus : List Json) :
    p.seen (pdu :: pdus) = (p.seen? pdu).toList ++ (p.afterPdu pdu).seen pdus :=
  if_neg (Bool.eq_false_iff.mp h)

theorem pdus_foldl_afterPdu (p : Peer) (pdus : List Json) :
    ((p.taken pdus).foldl afterPdu p).pdus = p.pdus ++ p.seen pdus := by
  induction pdus generalizing p with
  | nil => exact (List.append_nil _).symm
  | cons pdu pdus ih =>
    cases h : p.breaksOff pdu with
    | true =>
      rw [taken_cons_of_breaksOff h, seen_cons_of_breaksOff h]
      exact (List.append_nil _).symm
    | false =>
      rw [taken_cons h, seen_cons h, List.foldl_cons, ih, pdus_afterPdu, List.append_assoc]

theorem seen?_sublist (p : Peer) (pdu : Json) :
    (p.seen? pdu).toList.Sublist (p.read? pdu).toList := by
  unfold seen?
  cases p.read? pdu with
  | none => exact List.Sublist.refl _
  | some e =>
    rw [Option.filter_some]
    split
    · exact List.Sublist.refl _
    · exact List.nil_sublist _

theorem filterMap_read?_cons (p : Peer) (pdu : Json) (pdus : List Json) :
    (pdu :: pdus).filterMap p.read? =
      (p.read? pdu).toList ++ pdus.filterMap (p.afterPdu pdu).read? := by
  rw [read?_afterPdu, List.filterMap_cons]
  cases p.read? pdu <;> rfl

theorem seen_sublist (p : Peer) (pdus : List Json) :
    (p.seen pdus).Sublist (pdus.filterMap p.read?) := by
  induction pdus generalizing p with
  | nil => exact List.Sublist.refl _
  | cons pdu pdus ih =>
    cases h : p.breaksOff pdu with
    | true =>
      rw [seen_cons_of_breaksOff h]
      exact List.nil_sublist _
    | false =>
      rw [filterMap_read?_cons, seen_cons h]
      exact (seen?_sublist p pdu).append (ih _)

/-- An event is seen unless its room does not take it. -/
theorem seen?_eq_read?_iff {p : Peer} {pdu : Json} : p.seen? pdu = p.read? pdu ↔
    ∀ e r, p.read? pdu = some e → p.roomOf pdu = some r → r.takes e = true := by
  unfold seen?
  cases p.read? pdu with
  | none => exact ⟨fun _ _ _ h => (nomatch h), fun _ => rfl⟩
  | some e =>
    rw [Option.filter_eq_some_iff]
    cases p.roomOf pdu with
    | none => exact ⟨fun _ _ _ _ h => (nomatch h), fun _ => ⟨rfl, rfl⟩⟩
    | some r =>
      constructor
      · rintro ⟨-, htakes⟩ e' r' he hr
        cases he
        cases hr
        exact htakes
      · exact fun h => ⟨rfl, h e r rfl rfl⟩

/-- All events are seen iff each is at its turn. -/
theorem seen_eq_iff (p : Peer) (pdus : List Json) : p.seen pdus = pdus.filterMap p.read? ↔
    ∀ xs pdu ys, pdus = xs ++ pdu :: ys →
      (xs.foldl afterPdu p).seen? pdu = (xs.foldl afterPdu p).read? pdu := by
  induction pdus generalizing p with
  | nil => exact ⟨fun _ xs pdu ys h => absurd h.symm (by simp), fun _ => rfl⟩
  | cons pdu pdus ih =>
    cases hbreaks : p.breaksOff pdu with
    | true =>
      obtain ⟨e, hread, hseen⟩ := seen?_of_breaksOff hbreaks
      rw [seen_cons_of_breaksOff hbreaks, List.filterMap_cons_some hread]
      refine iff_of_false (fun h => nomatch h) fun h => ?_
      have hturn : p.seen? pdu = p.read? pdu := h [] pdu pdus rfl
      rw [hseen, hread] at hturn
      cases hturn
    | false =>
      have hhead : (p.seen? pdu).toList = (p.read? pdu).toList ↔ p.seen? pdu = p.read? pdu :=
        ⟨fun h => by simpa using congrArg List.head? h, fun h => congrArg Option.toList h⟩
      have hsplit := append_eq_append_iff_of_sublist (seen?_sublist p pdu)
        (seen_sublist (p.afterPdu pdu) pdus)
      rw [filterMap_read?_cons, seen_cons hbreaks, hsplit, hhead, ih, forall_split_cons]
      rfl

theorem read?_foldl (p : Peer) (pdus : List Json) : (pdus.foldl afterPdu p).read? = p.read? := by
  funext other
  rw [read?, read?, (sameVersions_foldl p pdus).versionFor]

theorem pdus_takeTransaction (p : Peer) (pdus edus : List Json) :
    (p.takeTransaction pdus edus).2.pdus = p.pdus ++ p.seen pdus := by
  obtain ⟨heard, hafter⟩ := takeTransaction_snd p pdus edus
  rw [hafter]
  exact pdus_foldl_afterPdu p pdus

/-- What a peer sees of a transaction. It sees, in their order, the events that their rooms take at
their turn, if the peer holds the rooms. These are some of the events that it reads under the
versions that it selects, and they are all of them iff no held room, as it is when it is an event's
turn, refuses the event. -/
theorem pdus_takeTransaction_iff (p : Peer) (pdus edus : List Json) :
    (p.takeTransaction pdus edus).2.pdus = p.pdus ++ p.seen pdus ∧
    (p.seen pdus).Sublist (pdus.filterMap p.read?) ∧
    ((p.takeTransaction pdus edus).2.pdus = p.pdus ++ pdus.filterMap p.read? ↔
      ∀ xs pdu ys, pdus = xs ++ pdu :: ys → ∀ e r, p.read? pdu = some e →
        (xs.foldl afterPdu p).roomOf pdu = some r → r.takes e = true) := by
  refine ⟨pdus_takeTransaction p pdus edus, seen_sublist p pdus, ?_⟩
  rw [pdus_takeTransaction, List.append_cancel_left_eq, seen_eq_iff]
  refine forall_congr' fun xs => forall_congr' fun pdu => forall_congr' fun ys =>
    imp_congr_right fun _ => ?_
  rw [seen?_eq_read?_iff, read?_foldl]

/-! ### An event ahead of its parent -/

/-- The host's room was created and has not recorded the first join, on which the greeting is. -/
theorem takes_greetingEvent : createdRoom.takes greetingEvent = false := by
  have hnew : createdRoom.contains greetingEvent.id = false := by
    refine Bool.eq_false_iff.mpr fun hheld => ?_
    obtain ⟨e, he, hid⟩ := List.mem_map.mp (Room.contains_iff.mp hheld)
    rw [id_of_mem_createdRoom he, id_greetingEvent] at hid
    exact absurd hid (by decide)
  cases hadd : createdRoom.addEvent greetingEvent with
  | error err => rw [Room.takes, hnew, hadd]; rfl
  | ok s =>
    have htip := (Room.addEvent_ok.mp hadd).2.1 _ List.mem_cons_self
    rcases Room.mem_extremities_append.mp htip with hid | ⟨hnone, -⟩
    · rw [id_creation] at hid
      exact absurd hid (by decide)
    · cases hnone

/-- The host can read the greeting, but it does not see it. -/
theorem greeting_unseen :
    [greetingEvent.json].filterMap (host.holdRoom createdRoom).read? = [greetingEvent] ∧
    ((host.holdRoom createdRoom).takeTransaction [greetingEvent.json] []).2.pdus = [] := by
  have hthree : Json.Safe 3 := ⟨by decide, by decide⟩
  have hcontent : greetingFields.content.Strict := Json.strict_obj.mpr (by simp)
  have hparse : Event.ofPdu createdRoom.version greetingEvent.json = .ok greetingEvent :=
    Event.ofPdu_signEvent
      (u := ⟨.default, greetingFields, Room.protoOf .default greetingFields "a"⟩)
      (Room.read_protoOf (f := greetingFields) rfl hthree hthree .default "a")
      (fun _ => Room.strict_protoOf (f := greetingFields) hcontent hthree hthree .default "a") _
  have hroom : (host.holdRoom createdRoom).roomOf greetingEvent.json = some createdRoom :=
    (roomOf_of_roomIdOf (roomIdOf_of_ofPdu hparse) _).trans room?_host
  have hread : (host.holdRoom createdRoom).read? greetingEvent.json = some greetingEvent := by
    rw [read?_of_held hroom, hparse]
    rfl
  constructor
  · rw [List.filterMap_cons, hread]
    rfl
  · have hseen : (host.holdRoom createdRoom).seen [greetingEvent.json] = [] := by
      unfold seen
      rw [seen?_of_held hroom hparse, takes_greetingEvent]
      exact ite_self _
    rw [pdus_takeTransaction, hseen, List.append_nil]
    rfl

end Peer

end Homeserver
