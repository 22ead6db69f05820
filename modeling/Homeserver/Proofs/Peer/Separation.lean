/-
Rooms within a transaction. What a transaction makes of a held room depends on the room and on the
entries that name it, in their order: each of these that is an event under the room's version is
added to the room or refused by it, or breaks off. Entries that name no held room make nothing of
any, and none of them breaks off. So a transaction goes through iff it does so for each room.
-/
import Homeserver.Proofs.Peer.Transaction

namespace Homeserver

namespace Room

end Room

namespace Peer

/-! ## Entries that name held rooms -/

theorem isObject_of_roomIdOf {pdu : Json} {id : String} (h : roomIdOf pdu = some id) :
    pdu.isObject = true := by
  cases pdu with
  | obj m => rfl
  | _ => cases h

theorem isObject_of_roomOf {p : Peer} {pdu : Json} {r : Room} (h : p.roomOf pdu = some r) :
    pdu.isObject = true := by
  obtain ⟨id, hid, -⟩ := Option.bind_eq_some_iff.mp h
  exact isObject_of_roomIdOf hid

/-- An entry that names a held room is read under the version of the room, and added to it unless it
is recorded. -/
theorem acceptPdu_of_held {p : Peer} {pdu : Json} {r : Room} (h : p.roomOf pdu = some r) :
    p.acceptPdu pdu = Event.ofPdu r.version pdu >>= fun e =>
      p.appendNew r e >>= fun q => .ok (q.seePdu e) := by
  unfold acceptPdu versionFor
  rw [h]
  rfl

/-- An entry that names no held room is only read. -/
theorem acceptPdu_of_unheld {p : Peer} {pdu : Json} (h : p.roomOf pdu = none) :
    p.acceptPdu pdu = (Event.ofPdu (p.versionFor pdu) pdu).map p.seePdu := by
  unfold acceptPdu
  rw [h]
  cases Event.ofPdu (p.versionFor pdu) pdu <;> rfl

/-- The room that an entry names decides what comes of it, whatever else the peer knows: it is no
event, the room refuses it, the room has recorded it, or the room records it. -/
theorem afterPdu_of_held (r : Room) (pdu : Json) :
    (∃ err, Event.ofPdu r.version pdu = .error err ∧
      ∀ p : Peer, p.roomOf pdu = some r → p.afterPdu pdu = p) ∨
    (∃ e err, Event.ofPdu r.version pdu = .ok e ∧ r.addEvent e = .error err ∧
      r.contains e.id = false ∧ ∀ p : Peer, p.roomOf pdu = some r → p.afterPdu pdu = p) ∨
    (∃ e, Event.ofPdu r.version pdu = .ok e ∧ r.contains e.id = true ∧
      ∀ p : Peer, p.roomOf pdu = some r → p.afterPdu pdu = p.seePdu e) ∨
    (∃ e s, Event.ofPdu r.version pdu = .ok e ∧ r.addEvent e = .ok s ∧
      ∀ p : Peer, p.roomOf pdu = some r → p.afterPdu pdu = (p.holdRoom s).seePdu e) := by
  cases he : Event.ofPdu r.version pdu with
  | error err =>
    refine .inl ⟨err, rfl, fun p h => ?_⟩
    exact afterPdu_of_rejected (isObject_of_roomOf h)
      ((acceptPdu_of_held h).trans (bind_error.mpr (.inl he)))
  | ok e =>
    by_cases hold : r.contains e.id = true
    · refine .inr (.inr (.inl ⟨e, rfl, hold, fun p h => ?_⟩))
      have happend : p.appendNew r e = .ok p := if_pos hold
      exact afterPdu_of_accepted (isObject_of_roomOf h)
        ((acceptPdu_of_held h).trans (bind_ok.mpr ⟨e, he, bind_ok.mpr ⟨p, happend, rfl⟩⟩))
    · have happend : ∀ p : Peer, p.appendNew r e = r.addEvent e >>= fun s => .ok (p.holdRoom s) :=
        fun p => if_neg hold
      cases hadd : r.addEvent e with
      | error err =>
        refine .inr (.inl ⟨e, err, rfl, hadd, Bool.eq_false_iff.mpr hold, fun p h => ?_⟩)
        exact afterPdu_of_rejected (isObject_of_roomOf h)
          ((acceptPdu_of_held h).trans (bind_error.mpr (.inr ⟨e, he, bind_error.mpr
            (.inl ((happend p).trans (bind_error.mpr (.inl hadd))))⟩)))
      | ok s =>
        refine .inr (.inr (.inr ⟨e, s, rfl, hadd, fun p h => ?_⟩))
        exact afterPdu_of_accepted (isObject_of_roomOf h)
          ((acceptPdu_of_held h).trans (bind_ok.mpr ⟨e, he, bind_ok.mpr
            ⟨_, (happend p).trans (bind_ok.mpr ⟨s, hadd, rfl⟩), rfl⟩⟩))

/-- Whether an entry names a room. -/
def names (id : String) (pdu : Json) : Bool := roomIdOf pdu = some id

theorem roomOf_of_roomIdOf {pdu : Json} {id : String} (h : roomIdOf pdu = some id) (p : Peer) :
    p.roomOf pdu = p.room? id := by
  rw [roomOf, h, Option.bind_some]

theorem not_breaksOff_of_unheld {p : Peer} {pdu : Json} (h : p.roomOf pdu = none) :
    p.breaksOff pdu = false := by
  refine Bool.eq_false_iff.mpr fun hbreaks => ?_
  have haccept := (acceptPdu_of_unheld h).symm.trans (breaksOff_iff.mp hbreaks)
  cases he : Event.ofPdu (p.versionFor pdu) pdu with
  | ok e => rw [he] at haccept; cases haccept
  | error err =>
    rw [he] at haccept
    cases haccept
    obtain ⟨cause, hcause⟩ := Event.onlyInvalid_ofPdu _ _ _ he
    cases hcause

/-- An entry that names a held room breaks off iff it is an event there that could be recorded but for
its depth, and one of its parents is as deep as can be. -/
theorem breaksOff_of_held {p : Peer} {pdu : Json} {r : Room} (h : p.roomOf pdu = some r) :
    p.breaksOff pdu = true ↔ ∃ e, Event.ofPdu r.version pdu = .ok e ∧ r.checkNew e = .ok () ∧
      r.checkExtremities e = .ok () ∧ Room.maxDepth ≤ r.deepestParent e := by
  rw [breaksOff_iff, acceptPdu_of_held h]
  constructor
  · intro haccept
    rcases bind_error.mp haccept with he | ⟨e, he, haccept⟩
    · obtain ⟨cause, hcause⟩ := Event.onlyInvalid_ofPdu _ _ _ he
      cases hcause
    · rcases bind_error.mp haccept with happend | ⟨q, -, hq⟩
      · unfold appendNew at happend
        split at happend
        · cases happend
        · have hadd := (bind_error.mp happend).resolve_right fun ⟨_, _, hq⟩ => nomatch hq
          exact ⟨e, he, Room.addEvent_overflow_iff.mp hadd⟩
      · cases hq
  · rintro ⟨e, he, hdeep⟩
    have hnew := (Room.checkNew_ok.mp hdeep.1).2.1
    have happend : p.appendNew r e = .error .overflow :=
      (if_neg (Bool.eq_false_iff.mp hnew)).trans
        (bind_error.mpr (.inl (Room.addEvent_overflow_iff.mpr hdeep)))
    exact bind_error.mpr (.inr ⟨e, he, bind_error.mpr (.inl happend)⟩)

theorem roomOf_of_breaksOff {p : Peer} {pdu : Json} (h : p.breaksOff pdu = true) :
    ∃ r, p.roomOf pdu = some r := by
  cases hroom : p.roomOf pdu with
  | none => exact absurd h (Bool.eq_false_iff.mp (not_breaksOff_of_unheld hroom))
  | some r => exact ⟨r, rfl⟩

end Peer

end Homeserver
