/-
Requests that nothing answers. What a served request changes of a peer never touches the report of
unexpected requests, and a request that no route serves changes nothing else. So after any run of
requests a strict peer reports exactly the requests that no registered bundle serves, in the order in
which they came, and fails at its end iff there are any; a lenient peer answers them with an empty
object and reports none.
-/
import Homeserver.Peer.Server
import Homeserver.Proofs.Peer.Routing
import Homeserver.Proofs.Peer.Service

namespace Homeserver

namespace Peer

/-! ## What served requests leave alone -/

/-- The peer counts the same requests as unexpected, and reports the same ones. -/
structure SameReport (p q : Peer) : Prop where
  strict : q.strict = p.strict
  unexpected : q.unexpected = p.unexpected

namespace SameReport

variable {p next last : Peer}

theorem refl (p : Peer) : SameReport p p := ⟨rfl, rfl⟩

theorem trans (h : SameReport p next) (h' : SameReport next last) : SameReport p last :=
  ⟨h'.strict.trans h.strict, h'.unexpected.trans h.unexpected⟩

theorem of_acceptPdu {pdu : Json} (h : p.acceptPdu pdu = .ok next) : SameReport p next := by
  obtain ⟨e, -, rfl | ⟨r, s, -, -, rfl⟩⟩ := acceptPdu_cases h
  · exact ⟨rfl, rfl⟩
  · exact ⟨rfl, rfl⟩

theorem afterPdu (p : Peer) (pdu : Json) : SameReport p (p.afterPdu pdu) := by
  unfold Peer.afterPdu
  split
  · split
    · rename_i h
      exact of_acceptPdu h
    · exact refl p
  · exact ⟨rfl, rfl⟩

theorem foldl_afterPdu (p : Peer) (pdus : List Json) :
    SameReport p (pdus.foldl Peer.afterPdu p) := by
  induction pdus generalizing p with
  | nil => exact refl p
  | cons pdu pdus ih => exact (afterPdu p pdu).trans (ih _)

/-- No change that serves a request touches the report. -/
theorem of_changes {q : Inbound} (h : Changes p q next) : SameReport p next := by
  cases h with
  | membership h =>
    obtain ⟨r, s, e, _, -, -, -, -, -, rfl⟩ := acceptMembership_cases h
    exact ⟨rfl, rfl⟩
  | invite h =>
    obtain ⟨version, rfl⟩ := acceptInvite_cases h
    exact ⟨rfl, rfl⟩
  | transaction h =>
    obtain ⟨taken, heard, rfl⟩ := receiveTransaction_cases h
    exact (foldl_afterPdu p taken).trans ⟨rfl, rfl⟩

theorem answer (e : Endpoint) (p : Peer) (q : Inbound) (parameters : List String) :
    SameReport p (e.answer p q parameters).2 := by
  rcases answer_cases e p q parameters with hsame | ⟨hchanges, -⟩
  · rw [hsame]
    exact refl p
  · exact of_changes hchanges

end SameReport

/-! ## Requests that these routes miss -/

/-- No route serves the request. -/
def misses (routes : Routes) (q : Inbound) : Bool := (routes.find? q.method q.path).isNone

/-- What a request that no route serves is answered: strict peers do not know it, and lenient ones
have nothing to say. -/
def missedAnswer (strict : Bool) (q : Inbound) : PeerAnswer :=
  if strict then .refused (.unrecognised ("unrecognised request " ++ q.shown))
  else .served (.obj [])

section

variable {routes : Routes} {q : Inbound}

theorem receive_of_misses (h : misses routes q = true) (p : Peer) :
    p.receive routes q = p.answerUnexpected q := by
  unfold receive
  rw [Option.isNone_iff_eq_none.mp h]

theorem sameReport_of_not_misses (h : misses routes q = false) (p : Peer) :
    SameReport p (p.receive routes q).2 := by
  unfold misses at h
  unfold receive
  split
  · rename_i hnone
    rw [hnone] at h
    cases h
  · split
    · exact .answer _ _ _ _
    · exact .refl p

/-- A request adds itself to the report of a strict peer iff no route serves it. -/
theorem report_receive (routes : Routes) (p : Peer) (q : Inbound) :
    (p.receive routes q).2.strict = p.strict ∧ (p.receive routes q).2.unexpected =
      p.unexpected ++ if p.strict && misses routes q then [q.shown] else [] := by
  cases h : misses routes q with
  | false =>
    obtain ⟨hstrict, hunexpected⟩ := sameReport_of_not_misses h p
    rw [Bool.and_false, if_neg Bool.false_ne_true, List.append_nil]
    exact ⟨hstrict, hunexpected⟩
  | true =>
    rw [receive_of_misses h, answerUnexpected]
    cases hp : p.strict with
    | true => exact ⟨rfl, rfl⟩
    | false => exact ⟨hp, (List.append_nil _).symm⟩

theorem answer_of_misses (h : misses routes q = true) (p : Peer) :
    (p.receive routes q).1 = missedAnswer p.strict q := by
  rw [receive_of_misses h, answerUnexpected, missedAnswer]
  split <;> rfl

end

/-! ## Runs of requests -/

/-- A run of requests adds to the report of a strict peer those that no route serves. -/
theorem report_receiveAll (routes : Routes) (p : Peer) (qs : List Inbound) :
    (p.receiveAll routes qs).2.strict = p.strict ∧ (p.receiveAll routes qs).2.unexpected =
      p.unexpected ++ if p.strict then (qs.filter (misses routes)).map Inbound.shown else [] := by
  induction qs generalizing p with
  | nil => exact ⟨rfl, by simp [receiveAll]⟩
  | cons q qs ih =>
    obtain ⟨hstrict, hunexpected⟩ := report_receive routes p q
    obtain ⟨hrest, hreport⟩ := ih (p.receive routes q).2
    refine ⟨hrest.trans hstrict, hreport.trans ?_⟩
    rw [hunexpected, hstrict, List.append_assoc, List.filter_cons]
    cases p.strict <;> cases misses routes q <;> simp

theorem answers_receiveAll (routes : Routes) (p : Peer) (qs : List Inbound) :
    List.Forall₂ (fun q a => misses routes q = true → a = missedAnswer p.strict q) qs
      (p.receiveAll routes qs).1 := by
  induction qs generalizing p with
  | nil => exact .nil
  | cons q qs ih =>
    have hrest := ih (p.receive routes q).2
    rw [(report_receive routes p q).1] at hrest
    exact .cons (fun h => answer_of_misses h p) hrest

end Peer

/-! ## Servers -/

theorem Server.finish_ok {s : Server} : s.finish = .ok () ↔
    (s.peer.strict = true → s.peer.unexpected = []) := by
  unfold finish
  cases s.peer.strict <;> cases s.peer.unexpected <;> simp

theorem Server.finish_error {s : Server} (hstrict : s.peer.strict = true)
    (hne : s.peer.unexpected ≠ []) :
    s.finish = .error (.unexpectedRequests s.peer.unexpected) := by
  unfold finish
  rw [hstrict, if_pos]
  simpa using hne

namespace Peer

/-- The routes of bundles miss the requests that none of the bundles serves. -/
theorem misses_ofBundles (bs : List Bundle) :
    misses (Routes.ofBundles bs) = fun q => !bs.any (·.serves q) := by
  funext q
  rw [misses, Bool.eq_iff_iff, Option.isNone_iff_eq_none, Routes.find?_ofBundles_eq_none,
    Bool.not_eq_true']

/-- Unexpected requests are reported exactly. Take a server that serves some bundles, registered in
any order and any number of times, and to which no request has come yet, and let any requests come.
If it is strict, its report lists those that no registered bundle serves, in the order in which they
came, each of them is answered that it is unknown, and the server fails at its end iff the report is
not empty, with that report. If it is lenient, the report stays empty, each of them is answered with
an empty object, and the server ends well. The route that serves a request depends only on which
bundles are registered. -/
theorem unexpected_exactly (s : Server) (bs : List Bundle) (qs : List Inbound) :
    let start : Server :=
      { s with routes := Routes.ofBundles bs, peer := { s.peer with unexpected := [] } }
    let answers := (start.serve qs).1
    let last := (start.serve qs).2
    let missed := qs.filter fun q => !bs.any (·.serves q)
    (if s.peer.strict then
      last.peer.unexpected = missed.map Inbound.shown ∧
      List.Forall₂ (fun q a => q ∈ missed → ∃ why, a = PeerAnswer.refused why ∧
        why.status = 404 ∧ why.code = "M_UNRECOGNIZED") qs answers ∧
      (last.finish = .ok () ↔ missed = []) ∧
      (missed ≠ [] → last.finish = .error (.unexpectedRequests (missed.map Inbound.shown)))
    else
      last.peer.unexpected = [] ∧
      List.Forall₂ (fun q a => q ∈ missed → a = PeerAnswer.served (.obj [])) qs answers ∧
      last.finish = .ok ()) ∧
    ∀ bs' : List Bundle, (∀ b, b ∈ bs' ↔ b ∈ bs) → ∀ method path,
      (Routes.ofBundles bs').find? method path = (Routes.ofBundles bs).find? method path := by
  intro start answers last missed
  have hmissed : ∀ q ∈ missed, misses (Routes.ofBundles bs) q = true := by
    intro q hq
    rw [misses_ofBundles]
    exact (List.mem_filter.mp hq).2
  obtain ⟨hstrict, hreport⟩ := report_receiveAll (Routes.ofBundles bs) start.peer qs
  have hanswers := answers_receiveAll (Routes.ofBundles bs) start.peer qs
  rw [misses_ofBundles] at hreport
  refine ⟨?_, fun bs' h method path => Routes.find?_ofBundles_congr h method path⟩
  cases hs : s.peer.strict with
  | true =>
    have hmode : start.peer.strict = true := hs
    rw [hmode] at hstrict hreport hanswers
    have hlist : last.peer.unexpected = missed.map Inbound.shown := hreport
    refine ⟨hlist, hanswers.imp fun q a h hq => ?_, ?_, fun hne => ?_⟩
    · exact ⟨_, h (hmissed q hq), rfl, rfl⟩
    · rw [Server.finish_ok, hlist, List.map_eq_nil_iff]
      exact ⟨fun h => h hstrict, fun h _ => h⟩
    · rw [Server.finish_error hstrict (hlist ▸ mt List.map_eq_nil_iff.mp hne), hlist]
  | false =>
    have hmode : start.peer.strict = false := hs
    rw [hmode] at hstrict hreport hanswers
    refine ⟨hreport, hanswers.imp fun q a h hq => h (hmissed q hq), ?_⟩
    exact Server.finish_ok.mpr fun h => absurd (hstrict.symm.trans h) Bool.false_ne_true

/-- A wrong method under a known path is missed, `HEAD` is served where `GET` is, and a target in
absolute form by its path. -/
example : [Bundle.keys].any (·.serves ⟨0, "PUT", .ofText "/_matrix/key/v2/server", none⟩) = false ∧
    [Bundle.keys].any (·.serves ⟨0, "HEAD", .ofText "/_matrix/key/v2/server", none⟩) = true ∧
    [Bundle.keys].any (·.serves ⟨0, "GET", .ofText "http://a/_matrix/key/v2/server", none⟩) =
      true := by
  decide +kernel

end Peer

end Homeserver
