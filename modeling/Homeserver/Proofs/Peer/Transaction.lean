/-
Transactions with events that are refused. A refused event leaves the peer as it was, so it hinders
no other. What is reported is a table by event ids, though, and an id does not cover all of an event:
a refused event with the id of an earlier one is reported in its place.
-/
import Homeserver.Peer.Transaction
import Homeserver.Proofs.Peer.Membership

namespace Homeserver.Peer

/-! ## Single events -/

theorem roomIdOf_of_ofPdu {version : RoomVersion} {pdu : Json} {e : Event}
    (h : Event.ofPdu version pdu = .ok e) : roomIdOf pdu = some e.roomId := by
  cases pdu with
  | obj m =>
    obtain ⟨fields, hf, -, -, -, rfl⟩ := Event.ofPdu_ok.mp h
    have hid := EventFields.readString_ok.mp (EventFields.read_ok.mp hf).2.2.1
    show (Table.find? "room_id" m).bind Json.string? = some fields.roomId
    rw [hid]
    rfl
  | _ => exact nomatch h

/-- What an accepted event changes: the peer remembers it, and the room it belongs to records it if
it is held and has not done so before. -/
theorem acceptPdu_cases {p next : Peer} {pdu : Json} (h : p.acceptPdu pdu = .ok next) :
    ∃ e, Event.ofPdu (p.versionFor pdu) pdu = .ok e ∧
      (next = p.seePdu e ∨ ∃ r s, p.room? r.roomId = some r ∧ r.addEvent e = .ok s ∧
        next = (p.holdRoom s).seePdu e) := by
  unfold acceptPdu at h
  obtain ⟨e, he, h⟩ := bind_ok.mp h
  refine ⟨e, he, ?_⟩
  cases hr : p.roomOf pdu with
  | none =>
    rw [hr] at h
    exact .inl (Except.ok.inj h).symm
  | some r =>
    rw [hr] at h
    obtain ⟨q, hq, h⟩ := bind_ok.mp h
    cases h
    unfold appendNew at hq
    split at hq
    · exact .inl (congrArg (seePdu · e) (Except.ok.inj hq).symm)
    · obtain ⟨s, hs, hq⟩ := bind_ok.mp hq
      cases hq
      -- the event was found to belong to the room under whose id the peer holds it
      rw [roomOf, roomIdOf_of_ofPdu he, (Room.addEvent_ok.mp hs).1.room] at hr
      exact .inr ⟨r, s, hr, hs, rfl⟩

/-! ## Versions -/

/-- Two peers read events under the same versions. -/
def SameVersions (p q : Peer) : Prop :=
  (∀ roomId, (p.room? roomId).map Room.version = (q.room? roomId).map Room.version) ∧
    p.invitedVersions = q.invitedVersions

theorem SameVersions.refl (p : Peer) : SameVersions p p := ⟨fun _ => rfl, rfl⟩

theorem SameVersions.trans {p q s : Peer} (h : SameVersions p q) (h' : SameVersions q s) :
    SameVersions p s := ⟨fun id => (h.1 id).trans (h'.1 id), h.2.trans h'.2⟩

theorem SameVersions.versionFor {p q : Peer} (h : SameVersions p q) (pdu : Json) :
    p.versionFor pdu = q.versionFor pdu := by
  unfold Peer.versionFor roomOf invitedVersion?
  rw [h.2]
  cases roomIdOf pdu with
  | none => rfl
  | some id =>
    have := h.1 id
    cases hp : p.room? id <;> cases hq : q.room? id <;> simp_all

/-- Accepted events change no version under which events are read. -/
theorem sameVersions_acceptPdu {p next : Peer} {pdu : Json} (h : p.acceptPdu pdu = .ok next) :
    SameVersions next p := by
  obtain ⟨e, he, rfl | ⟨r, s, hheld, hs, rfl⟩⟩ := acceptPdu_cases h
  · exact SameVersions.refl p
  · obtain ⟨-, -, rfl⟩ := Room.addEvent_ok.mp hs
    refine ⟨fun id => ?_, rfl⟩
    show ((p.holdRoom (r.append e)).room? id).map _ = _
    rw [room?_holdRoom, Room.roomId_append]
    split
    · rename_i hid
      rw [← hid, hheld, Option.map_some, Option.map_some, Room.version_append]
    · rfl

/-! ## Entries -/

/-- The id under which a peer reports on an event. -/
def reportId (p : Peer) (pdu : Json) : String := eventId (p.versionFor pdu) pdu

/-- What a peer reports on an event. -/
def report (p : Peer) (pdu : Json) : Except EventError Unit := (p.acceptPdu pdu).map fun _ => ()

/-- The peer after an entry of a transaction. -/
def afterPdu (p : Peer) (pdu : Json) : Peer :=
  if pdu.isObject then
    match p.acceptPdu pdu with
    | .ok next => next
    | .error _ => p
  else { p with malformed := p.malformed ++ [pdu] }

/-- Whether an entry breaks off the transaction in which it has its turn. -/
def breaksOff (p : Peer) (pdu : Json) : Bool :=
  match p.acceptPdu pdu with
  | .error .overflow => true
  | _ => false

theorem breaksOff_iff {p : Peer} {pdu : Json} :
    p.breaksOff pdu = true ↔ p.acceptPdu pdu = .error .overflow := by
  unfold breaksOff
  constructor
  · intro h
    split at h
    · rename_i haccept
      exact haccept
    · cases h
  · intro h
    rw [h]

/-- Takes an entry as one that does not break off: if it is an object it is reported under its id,
and nothing else is. -/
def enter (s : TransactionOutcome EventError × Peer) (pdu : Json) :
    TransactionOutcome EventError × Peer :=
  (if pdu.isObject then Table.insert (s.2.reportId pdu) (s.2.report pdu) s.1 else s.1,
    s.2.afterPdu pdu)

theorem acceptPdu_of_not_object {p : Peer} {pdu : Json} (h : pdu.isObject = false) :
    p.acceptPdu pdu = .error (.invalid .pduNotObject) := by
  cases pdu with
  | obj m => cases h
  | _ => rfl

theorem takePdu_eq (s : TransactionOutcome EventError × Peer) (pdu : Json) :
    takePdu s pdu = if s.2.breaksOff pdu then .error s.2 else .ok (enter s pdu) := by
  obtain ⟨o, p⟩ := s
  unfold takePdu enter report reportId afterPdu breaksOff
  dsimp only
  cases hobject : pdu.isObject with
  | false => simp [acceptPdu_of_not_object hobject]
  | true =>
    cases p.acceptPdu pdu with
    | ok next => simp [Except.map]
    | error err => cases err <;> simp [Except.map]

theorem find?_enter (o : TransactionOutcome EventError) (p : Peer) (pdu : Json) (id : String) :
    Table.find? id (enter (o, p) pdu).1 =
      if pdu.isObject = true ∧ p.reportId pdu = id then some (p.report pdu)
      else Table.find? id o := by
  unfold enter
  cases pdu.isObject with
  | false => simp
  | true => simp [Table.find?_insert]

theorem sameVersions_afterPdu (p : Peer) (pdu : Json) : SameVersions (p.afterPdu pdu) p := by
  unfold afterPdu
  split
  · cases h : p.acceptPdu pdu with
    | error err => exact SameVersions.refl p
    | ok next => exact sameVersions_acceptPdu h
  · exact SameVersions.refl p

theorem reportId_afterPdu (p : Peer) (pdu other : Json) :
    (p.afterPdu pdu).reportId other = p.reportId other := by
  unfold reportId
  rw [(sameVersions_afterPdu p pdu).versionFor]

/-! ## Runs of entries -/

/-- Some of these entries is reported under an id. -/
def Reported (p : Peer) (pdus : List Json) (id : String) : Prop :=
  ∃ pdu ∈ pdus, pdu.isObject = true ∧ p.reportId pdu = id

theorem foldl_enter_snd (o : TransactionOutcome EventError) (p : Peer) (pdus : List Json) :
    (pdus.foldl enter (o, p)).2 = pdus.foldl afterPdu p := by
  induction pdus generalizing o p with
  | nil => rfl
  | cons pdu pdus ih => exact ih _ _

theorem sameVersions_foldl (p : Peer) (pdus : List Json) : SameVersions (pdus.foldl afterPdu p) p := by
  induction pdus generalizing p with
  | nil => exact SameVersions.refl p
  | cons pdu pdus ih => exact (ih _).trans (sameVersions_afterPdu p pdu)

theorem reportId_foldl (p : Peer) (pdus : List Json) (other : Json) :
    (pdus.foldl afterPdu p).reportId other = p.reportId other := by
  unfold reportId
  rw [(sameVersions_foldl p pdus).versionFor]

theorem reported_cons {p : Peer} {pdu : Json} {pdus : List Json} {id : String} :
    p.Reported (pdu :: pdus) id ↔
      (pdu.isObject = true ∧ p.reportId pdu = id) ∨ (p.afterPdu pdu).Reported pdus id := by
  unfold Reported
  simp only [List.mem_cons, exists_eq_or_imp, reportId_afterPdu]

/-- Entries leave what was reported before under an id under which they report nothing. -/
theorem find?_of_not_reported {p : Peer} {pdus : List Json} {id : String}
    (h : ¬ p.Reported pdus id) (o : TransactionOutcome EventError) :
    Table.find? id (pdus.foldl enter (o, p)).1 = Table.find? id o := by
  induction pdus generalizing p o with
  | nil => rfl
  | cons pdu pdus ih =>
    rw [reported_cons, not_or] at h
    have hstep := find?_enter o p pdu id
    rw [if_neg h.1] at hstep
    rw [List.foldl_cons, ← hstep]
    exact ih h.2 _

/-- What was reported before does not count for an id under which these entries report. -/
theorem find?_of_reported {p : Peer} {pdus : List Json} {id : String} (h : p.Reported pdus id)
    (o o' : TransactionOutcome EventError) :
    Table.find? id (pdus.foldl enter (o, p)).1 = Table.find? id (pdus.foldl enter (o', p)).1 := by
  induction pdus generalizing p o o' with
  | nil => obtain ⟨_, hm, _⟩ := h; cases hm
  | cons pdu pdus ih =>
    by_cases hrest : (p.afterPdu pdu).Reported pdus id
    · exact ih hrest _ _
    · -- the last report under the id is that of this entry
      have hpdu := (reported_cons.mp h).resolve_right hrest
      have hlast : ∀ o, Table.find? id ((pdu :: pdus).foldl enter (o, p)).1 =
          some (p.report pdu) := by
        intro o
        have hstep := find?_enter o p pdu id
        rw [if_pos hpdu] at hstep
        exact (find?_of_not_reported hrest _).trans hstep
      rw [hlast, hlast]

/-- The peer when it is an event's turn, and what is reported by then. -/
theorem foldl_enter_eq (p : Peer) (pdus : List Json) :
    pdus.foldl enter ([], p) = ((pdus.foldl enter ([], p)).1, pdus.foldl afterPdu p) := by
  rw [← foldl_enter_snd [] p pdus]

/-! ## Transactions -/

/-- The entries that are taken: those before the first one that breaks off. -/
def taken (p : Peer) : List Json → List Json
  | [] => []
  | pdu :: rest => if p.breaksOff pdu then [] else pdu :: (p.afterPdu pdu).taken rest

section

variable {p : Peer} {pdu : Json} {xs ys pdus edus : List Json}

theorem taken_cons_of_breaksOff (h : p.breaksOff pdu = true) : p.taken (pdu :: pdus) = [] :=
  if_pos h

theorem taken_cons (h : p.breaksOff pdu = false) :
    p.taken (pdu :: pdus) = pdu :: (p.afterPdu pdu).taken pdus :=
  if_neg (Bool.eq_false_iff.mp h)

theorem isPrefix_taken (p : Peer) (pdus : List Json) : p.taken pdus <+: pdus := by
  induction pdus generalizing p with
  | nil => exact List.prefix_rfl
  | cons pdu pdus ih =>
    cases h : p.breaksOff pdu with
    | true =>
      rw [taken_cons_of_breaksOff h]
      exact List.nil_prefix
    | false =>
      rw [taken_cons h]
      exact (List.cons_prefix_cons).mpr ⟨rfl, ih _⟩

/-- All entries are taken iff the first does not break off and all others are taken after it. -/
theorem taken_cons_eq_iff : p.taken (pdu :: pdus) = pdu :: pdus ↔
    p.breaksOff pdu = false ∧ (p.afterPdu pdu).taken pdus = pdus := by
  cases h : p.breaksOff pdu with
  | true =>
    rw [taken_cons_of_breaksOff h]
    exact ⟨fun h => (nomatch h), fun h => (nomatch h.1)⟩
  | false =>
    rw [taken_cons h]
    exact ⟨fun h => ⟨rfl, (List.cons.inj h).2⟩, fun h => congrArg _ h.2⟩

theorem taken_append_of_taken (h : p.taken xs = xs) (ys : List Json) :
    p.taken (xs ++ ys) = xs ++ (xs.foldl afterPdu p).taken ys := by
  induction xs generalizing p with
  | nil => rfl
  | cons x xs ih =>
    obtain ⟨hx, hxs⟩ := taken_cons_eq_iff.mp h
    rw [List.cons_append, taken_cons hx, ih hxs]
    rfl

theorem taken_append_of_broken (h : p.taken xs ≠ xs) (ys : List Json) :
    p.taken (xs ++ ys) = p.taken xs := by
  induction xs generalizing p with
  | nil => exact absurd rfl h
  | cons x xs ih =>
    cases hx : p.breaksOff x with
    | true => rw [List.cons_append, taken_cons_of_breaksOff hx, taken_cons_of_breaksOff hx]
    | false =>
      have hxs : (p.afterPdu x).taken xs ≠ xs := fun hxs => h (taken_cons_eq_iff.mpr ⟨hx, hxs⟩)
      rw [List.cons_append, taken_cons hx, taken_cons hx, ih hxs]

theorem taken_eq_of_append (h : p.taken (xs ++ ys) = xs ++ ys) : p.taken xs = xs := by
  by_contra hxs
  have hlength := congrArg List.length h
  have hle := (isPrefix_taken p xs).length_le
  have hne : (p.taken xs).length ≠ xs.length := fun heq => hxs ((isPrefix_taken p xs).eq_of_length heq)
  rw [taken_append_of_broken hxs, List.length_append] at hlength
  omega

theorem foldlM_of_taken (h : p.taken pdus = pdus) (o : TransactionOutcome EventError) :
    pdus.foldlM takePdu (o, p) = .ok (pdus.foldl enter (o, p)) := by
  induction pdus generalizing p o with
  | nil => rfl
  | cons pdu pdus ih =>
    obtain ⟨hpdu, hrest⟩ := taken_cons_eq_iff.mp h
    have hstep : takePdu (o, p) pdu = .ok (enter (o, p) pdu) := by
      rw [takePdu_eq, if_neg (Bool.eq_false_iff.mp hpdu)]
    rw [List.foldlM_cons, hstep]
    exact ih hrest _

theorem foldlM_of_broken (h : p.taken pdus ≠ pdus) (o : TransactionOutcome EventError) :
    pdus.foldlM takePdu (o, p) = .error ((p.taken pdus).foldl afterPdu p) := by
  induction pdus generalizing p o with
  | nil => exact absurd rfl h
  | cons pdu pdus ih =>
    rw [List.foldlM_cons, takePdu_eq]
    cases hpdu : p.breaksOff pdu with
    | true =>
      rw [taken_cons_of_breaksOff hpdu, if_pos rfl]
      rfl
    | false =>
      have hrest : (p.afterPdu pdu).taken pdus ≠ pdus :=
        fun hrest => h (taken_cons_eq_iff.mpr ⟨hpdu, hrest⟩)
      rw [taken_cons hpdu, if_neg Bool.false_ne_true]
      exact ih hrest _

/-- A transaction of which all entries are taken. -/
theorem takeTransaction_of_taken (h : p.taken pdus = pdus) (edus : List Json) :
    p.takeTransaction pdus edus = (some (pdus.foldl enter ([], p)).1,
      { pdus.foldl afterPdu p with edus := (pdus.foldl afterPdu p).edus ++ edus }) := by
  unfold takeTransaction
  rw [foldlM_of_taken h, ← foldl_enter_snd [] p pdus]

theorem takeTransaction_snd_of_taken (h : p.taken pdus = pdus) :
    (p.takeTransaction pdus []).2 = pdus.foldl afterPdu p := by
  rw [takeTransaction_of_taken h, List.append_nil]

/-- A transaction that breaks off. -/
theorem takeTransaction_of_broken (h : p.taken pdus ≠ pdus) (edus : List Json) :
    p.takeTransaction pdus edus = (none, (p.taken pdus).foldl afterPdu p) := by
  unfold takeTransaction
  rw [foldlM_of_broken h]

/-- Entries behind those that break off do not matter. -/
theorem takeTransaction_of_broken_append (h : p.taken xs ≠ xs) (ys : List Json) :
    p.takeTransaction (xs ++ ys) edus = (none, (p.taken xs).foldl afterPdu p) := by
  have hbroken := taken_append_of_broken h ys
  rw [takeTransaction_of_broken, hbroken]
  exact fun hall => h (taken_eq_of_append hall)

/-- There is an outcome iff all entries are taken. -/
theorem takeTransaction_eq_some {o : TransactionOutcome EventError} :
    (p.takeTransaction pdus edus).1 = some o ↔
      p.taken pdus = pdus ∧ o = (pdus.foldl enter ([], p)).1 := by
  by_cases h : p.taken pdus = pdus
  · rw [takeTransaction_of_taken h]
    exact ⟨fun ho => ⟨h, (Option.some.inj ho).symm⟩, fun ho => congrArg some ho.2.symm⟩
  · rw [takeTransaction_of_broken h]
    exact ⟨fun ho => (nomatch ho), fun ho => absurd ho.1 h⟩

theorem isSome_takeTransaction :
    (p.takeTransaction pdus edus).1.isSome = true ↔ p.taken pdus = pdus := by
  rw [Option.isSome_iff_exists]
  exact ⟨fun ⟨_, ho⟩ => (takeTransaction_eq_some.mp ho).1,
    fun h => ⟨_, takeTransaction_eq_some.mpr ⟨h, rfl⟩⟩⟩

theorem isSome_takeTransaction_congr {q : Peer} {edus' : List Json}
    (h : p.taken xs = xs ↔ q.taken ys = ys) :
    (p.takeTransaction xs edus).1.isSome = (q.takeTransaction ys edus').1.isSome :=
  Bool.eq_iff_iff.mpr (isSome_takeTransaction.trans (h.trans isSome_takeTransaction.symm))

/-- A transaction makes of a peer what the entries make of it that are taken, but for the messages. -/
theorem takeTransaction_snd (p : Peer) (pdus edus : List Json) : ∃ heard : List Json,
    (p.takeTransaction pdus edus).2 = { (p.taken pdus).foldl afterPdu p with edus := heard } := by
  by_cases h : p.taken pdus = pdus
  · rw [takeTransaction_of_taken h, h]
    exact ⟨_, rfl⟩
  · rw [takeTransaction_of_broken h]
    exact ⟨_, rfl⟩

end

/-! ## Refused events -/

theorem afterPdu_of_rejected {p : Peer} {pdu : Json} {err : EventError}
    (hobj : pdu.isObject = true) (h : p.acceptPdu pdu = .error err) : p.afterPdu pdu = p := by
  unfold afterPdu
  rw [if_pos hobj, h]

theorem afterPdu_of_accepted {p next : Peer} {pdu : Json} (hobj : pdu.isObject = true)
    (h : p.acceptPdu pdu = .ok next) : p.afterPdu pdu = next := by
  unfold afterPdu
  rw [if_pos hobj, h]

theorem not_breaksOff_of_accepted {p next : Peer} {pdu : Json} (h : p.acceptPdu pdu = .ok next) :
    p.breaksOff pdu = false :=
  Bool.eq_false_iff.mpr fun hbreaks => nomatch h.symm.trans (breaksOff_iff.mp hbreaks)

theorem not_breaksOff_of_rejected {p : Peer} {pdu : Json} {err : EventError}
    (h : p.acceptPdu pdu = .error err) (herr : err ≠ .overflow) : p.breaksOff pdu = false :=
  Bool.eq_false_iff.mpr fun hbreaks => herr (Except.error.inj (h.symm.trans (breaksOff_iff.mp hbreaks)))

/-- What is reported with and without a refused event. Its refusal is reported under its id, unless
an event behind it has the id, and nothing else is reported in another way. -/
theorem find?_of_rejected {p : Peer} {xs : List Json} {bad : Json} {err : EventError}
    (hobj : bad.isObject = true) (hbad : (xs.foldl afterPdu p).acceptPdu bad = .error err)
    (ys : List Json) :
    (∀ id, id ≠ p.reportId bad ∨ p.Reported ys (p.reportId bad) →
      Table.find? id ((xs ++ bad :: ys).foldl enter ([], p)).1 =
        Table.find? id ((xs ++ ys).foldl enter ([], p)).1) ∧
    (¬ p.Reported ys (p.reportId bad) →
      Table.find? (p.reportId bad) ((xs ++ bad :: ys).foldl enter ([], p)).1 =
        some (.error err)) := by
  -- ids do not depend on when they are computed, and both runs go on with one peer
  have hids : ∀ pdu, (xs.foldl afterPdu p).reportId pdu = p.reportId pdu := reportId_foldl p xs
  have hreported : ∀ id, (xs.foldl afterPdu p).Reported ys id ↔ p.Reported ys id := by
    simp [Reported, hids]
  have hstep : ∀ o, enter (o, xs.foldl afterPdu p) bad =
      (Table.insert (p.reportId bad) (.error err) o, xs.foldl afterPdu p) := by
    intro o
    unfold enter
    rw [if_pos hobj, hids, report, hbad, afterPdu_of_rejected hobj hbad]
    rfl
  rw [List.foldl_append, List.foldl_append, foldl_enter_eq, List.foldl_cons, hstep]
  constructor
  · intro id h
    by_cases hy : p.Reported ys id
    · exact find?_of_reported ((hreported id).mpr hy) _ _
    · have hne : p.reportId bad ≠ id := by
        rintro rfl
        exact h.elim (· rfl) hy
      rw [find?_of_not_reported ((hreported id).not.mpr hy),
        find?_of_not_reported ((hreported id).not.mpr hy), Table.find?_insert_of_ne hne]
  · intro h
    rw [find?_of_not_reported ((hreported _).not.mpr h), Table.find?_insert_self]

/-- All entries are taken with a refused event iff they are without it, and otherwise both runs leave
the same peer. -/
theorem taken_of_rejected {p : Peer} {xs : List Json} {bad : Json} {err : EventError}
    (hxs : p.taken xs = xs) (hobj : bad.isObject = true) (herr : err ≠ .overflow)
    (hbad : (xs.foldl afterPdu p).acceptPdu bad = .error err) (ys : List Json) :
    (p.taken (xs ++ bad :: ys) = xs ++ bad :: ys ↔ p.taken (xs ++ ys) = xs ++ ys) ∧
      (p.taken (xs ++ bad :: ys)).foldl afterPdu p = (p.taken (xs ++ ys)).foldl afterPdu p := by
  have hsame := afterPdu_of_rejected hobj hbad
  rw [taken_append_of_taken hxs, taken_append_of_taken hxs,
    taken_cons (not_breaksOff_of_rejected hbad herr), hsame]
  refine ⟨by simp, ?_⟩
  rw [List.foldl_append, List.foldl_append, List.foldl_cons, hsame]

/-- What a refused event does to the others of a transaction. The peer becomes the same as without
it, and there is an outcome iff there is one without it. The report on another event differs only
under the id of the refused one, where the refusal is reported unless an event behind it has the id.
So no other event is affected iff no event before the refused one has its id, or one behind it has,
or the refusal is what is reported there anyway. -/
theorem takeTransaction_rejected {p : Peer} {xs ys edus : List Json} {bad : Json} {err : EventError}
    (hobj : bad.isObject = true) (herr : err ≠ .overflow)
    (hbad : (p.takeTransaction xs []).2.acceptPdu bad = .error err) :
    let whole := p.takeTransaction (xs ++ bad :: ys) edus
    let rest := p.takeTransaction (xs ++ ys) edus
    let id := p.reportId bad
    whole.2 = rest.2 ∧ whole.1.isSome = rest.1.isSome ∧
    ∀ made without, whole.1 = some made → rest.1 = some without →
      (∀ id', id' ≠ id ∨ p.Reported ys id → Table.find? id' made = Table.find? id' without) ∧
      (¬ p.Reported ys id → Table.find? id made = some (.error err)) ∧
      ((∀ other ∈ xs ++ ys, other.isObject = true →
          Table.find? (p.reportId other) made = Table.find? (p.reportId other) without) ↔
        (p.Reported xs id →
          p.Reported ys id ∨ Table.find? id without = some (.error err))) := by
  intro whole rest id
  by_cases hxs : p.taken xs = xs
  · have hbad' : (xs.foldl afterPdu p).acceptPdu bad = .error err := by
      rw [takeTransaction_snd_of_taken hxs] at hbad
      exact hbad
    obtain ⟨htaken, hafter⟩ := taken_of_rejected hxs hobj herr hbad' ys
    refine ⟨?_, ?_, fun made without hmade hwithout => ?_⟩
    · by_cases hall : p.taken (xs ++ ys) = xs ++ ys
      · have hwhole := htaken.mpr hall
        rw [hwhole, hall] at hafter
        show (p.takeTransaction _ _).2 = (p.takeTransaction _ _).2
        rw [takeTransaction_of_taken hwhole, takeTransaction_of_taken hall, hafter]
      · show (p.takeTransaction _ _).2 = (p.takeTransaction _ _).2
        rw [takeTransaction_of_broken (htaken.not.mpr hall), takeTransaction_of_broken hall, hafter]
    · exact isSome_takeTransaction_congr htaken
    · obtain ⟨-, rfl⟩ := takeTransaction_eq_some.mp hmade
      obtain ⟨-, rfl⟩ := takeTransaction_eq_some.mp hwithout
      obtain ⟨hsame, herror⟩ := find?_of_rejected hobj hbad' ys
      refine ⟨hsame, herror, fun h hx => ?_, fun h other hm ho => ?_⟩
      · obtain ⟨other, hm, ho, hid⟩ := hx
        refine Classical.or_iff_not_imp_left.mpr fun hy => ?_
        rw [← hid, ← h other (List.mem_append_left _ hm) ho, hid, herror hy]
      · by_cases hid : p.reportId other = id
        · by_cases hy : p.Reported ys id
          · exact hsame _ (.inr hy)
          · -- the event stands before the refused one, since none behind it has the id
            have hx : other ∈ xs :=
              (List.mem_append.mp hm).resolve_right fun hm => hy ⟨other, hm, ho, hid⟩
            rw [hid, herror hy, (h ⟨other, hx, ho, hid⟩).resolve_left hy]
        · exact hsame _ (.inl hid)
  · -- both break off before it is the event's turn
    rw [show whole = _ from takeTransaction_of_broken_append hxs (bad :: ys),
      show rest = _ from takeTransaction_of_broken_append hxs ys]
    exact ⟨rfl, rfl, fun made _ hmade => (nomatch hmade)⟩

/-! ## Copies without signatures -/

theorem acceptPdu_of_not_event {p : Peer} {pdu : Json} {err : EventError}
    (h : Event.ofPdu (p.versionFor pdu) pdu = .error err) : p.acceptPdu pdu = .error err := by
  unfold acceptPdu
  rw [h]
  rfl

/-- An event without its signatures has the id of the event, and is refused. -/
theorem refuses_unsigned {p : Peer} {m : Members} {e : Event} (hm : Table.Sorted m)
    (he : Event.ofPdu (p.versionFor (.obj m)) (.obj m) = .ok e) :
    p.reportId (.obj (Table.erase "signatures" m)) = p.reportId (.obj m) ∧
      p.acceptPdu (.obj (Table.erase "signatures" m)) =
        .error (.invalid (.missingField "signatures")) := by
  have hfind : ∀ key, key ≠ "signatures" →
      Table.find? key (Table.erase "signatures" m) = Table.find? key m := fun key h => by
    rw [Table.find?_erase, if_neg h.symm]
  have hversion : p.versionFor (.obj (Table.erase "signatures" m)) = p.versionFor (.obj m) := by
    unfold versionFor roomOf roomIdOf
    simp only [Json.get?]
    rw [hfind "room_id" (by decide)]
  refine ⟨?_, acceptPdu_of_not_event ?_⟩
  · unfold reportId
    rw [hversion]
    exact eventId_congr (hm.erase _) hm (fun key h _ => hfind key h) _
  · obtain ⟨fields, hf, -⟩ := Event.ofPdu_ok.mp he
    rw [hversion]
    unfold Event.ofPdu
    simp only [EventFields.read_erase (by decide : "signatures" ∉ EventFields.keys), hf,
      Table.find?_erase, if_pos]
    rfl

/-- Of an accepted event and a copy of it without signatures behind it, only the refusal of the copy
is reported. -/
theorem reports_unsigned {p next : Peer} {m : Members} (hm : Table.Sorted m)
    (h : p.acceptPdu (.obj m) = .ok next) :
    (p.takeTransaction [.obj m] []).2.acceptPdu (.obj (Table.erase "signatures" m)) =
      .error (.invalid (.missingField "signatures")) ∧
    ∃ made alone,
      (p.takeTransaction [.obj m, .obj (Table.erase "signatures" m)] []).1 = some made ∧
      (p.takeTransaction [.obj m] []).1 = some alone ∧
      Table.find? (p.reportId (.obj m)) made =
        some (.error (.invalid (.missingField "signatures"))) ∧
      Table.find? (p.reportId (.obj m)) alone = some (.ok ()) := by
  have hnext : p.afterPdu (.obj m) = next := afterPdu_of_accepted rfl h
  obtain ⟨e, he, -⟩ := acceptPdu_cases h
  rw [← (sameVersions_acceptPdu h).versionFor] at he
  obtain ⟨hid, hrefused⟩ := refuses_unsigned hm he
  -- neither of the two breaks off
  have hbreaks : next.breaksOff (.obj (Table.erase "signatures" m)) = false :=
    not_breaksOff_of_rejected hrefused (by decide)
  have halone : p.taken [.obj m] = [.obj m] := taken_cons (not_breaksOff_of_accepted h)
  have hboth : p.taken [.obj m, .obj (Table.erase "signatures" m)] =
      [.obj m, .obj (Table.erase "signatures" m)] :=
    taken_cons_eq_iff.mpr ⟨not_breaksOff_of_accepted h, by rw [hnext]; exact taken_cons hbreaks⟩
  refine ⟨?_, _, _, takeTransaction_eq_some.mpr ⟨hboth, rfl⟩,
    takeTransaction_eq_some.mpr ⟨halone, rfl⟩, ?_, ?_⟩
  · rw [takeTransaction_snd_of_taken halone, List.foldl_cons, hnext, List.foldl_nil]
    exact hrefused
  · have hsame : next.reportId (.obj (Table.erase "signatures" m)) = p.reportId (.obj m) := by
      rw [hid, ← hnext, reportId_afterPdu]
    have hlast := find?_enter (enter ([], p) (.obj m)).1 next (.obj (Table.erase "signatures" m))
      (p.reportId (.obj m))
    rw [if_pos ⟨rfl, hsame⟩, report, hrefused] at hlast
    subst hnext
    exact hlast
  · have hlast := find?_enter [] p (.obj m) (p.reportId (.obj m))
    rw [if_pos ⟨rfl, rfl⟩, report, h] at hlast
    exact hlast

/-- A peer that holds no room. -/
def idle : Peer where
  identity := ⟨"a", "ed25519:1", ⟨List.replicate 32 11⟩⟩
  strict := false

/-- A message for a room that the peer does not hold. -/
def message : UnsignedEvent :=
  let fields : EventFields := ⟨"!r:a", "@u:a", "m.room.message", none, .obj [], [], [], 1, 1⟩
  ⟨.default, fields, Room.protoOf .default fields "a"⟩

/-- The message as it is signed. -/
def signedMessage : Members := (idle.identity.signEvent message).json.membersD

theorem sorted_signedMessage : Table.Sorted signedMessage :=
  Table.Sorted.insert (((Table.sorted_ofList _).insert _ _).insert _ _) _ _

theorem idle_accepts_signedMessage : idle.acceptPdu (.obj signedMessage) =
    .ok (idle.seePdu (idle.identity.signEvent message)) := by
  have h : Event.ofPdu (idle.versionFor (.obj signedMessage)) (.obj signedMessage) = _ :=
    Event.ofPdu_signEvent (u := message) rfl (fun _ => rfl) idle.identity
  unfold acceptPdu
  rw [h]
  rfl

/-- A message is accepted, its copy without signatures is refused, and the refusal is reported where
without the copy the message is reported as accepted. -/
theorem refused_copy_overwrites :
    (idle.takeTransaction [.obj signedMessage] []).2.acceptPdu
        (.obj (Table.erase "signatures" signedMessage)) =
      .error (.invalid (.missingField "signatures")) ∧
    ∃ made alone,
      (idle.takeTransaction
        [.obj signedMessage, .obj (Table.erase "signatures" signedMessage)] []).1 = some made ∧
      (idle.takeTransaction [.obj signedMessage] []).1 = some alone ∧
      Table.find? (idle.reportId (.obj signedMessage)) made ≠
        Table.find? (idle.reportId (.obj signedMessage)) alone := by
  obtain ⟨hrefused, made, alone, hmade, halone, herror, hok⟩ :=
    reports_unsigned sorted_signedMessage idle_accepts_signedMessage
  refine ⟨hrefused, made, alone, hmade, halone, ?_⟩
  rw [herror, hok]
  exact fun h => nomatch h

/-- The copy leaves no trace in the peer. -/
theorem takeTransaction_rejected_unsigned :
    (idle.takeTransaction
      ([.obj signedMessage] ++ .obj (Table.erase "signatures" signedMessage) :: []) []).2 =
        (idle.takeTransaction ([.obj signedMessage] ++ []) []).2 :=
  (takeTransaction_rejected rfl (by decide)
    (reports_unsigned sorted_signedMessage idle_accepts_signedMessage).1).1

end Homeserver.Peer
