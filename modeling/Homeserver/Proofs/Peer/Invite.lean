/-
Invites that are signed and sent back. What a server invites by comes to the peer as text, so its
members are in order; and an event that was accepted stays that event whoever signs it. So the
server is answered with the invite that it sent, which now bears the peer's signature as well.
-/
import Homeserver.Proofs.Event.Cosigned
import Homeserver.Proofs.Json.Reading
import Homeserver.Proofs.Peer.Race

namespace Homeserver

namespace Peer

/-! ## Accepting -/

theorem invited_of_status {routes : Routes} {p : Peer} {q : Inbound} {roomId eventId : String}
    (hpath : Reaches routes q .invite [roomId, eventId])
    (hstatus : (p.receive routes q).1.status = 200) :
    ∃ e next, p.acceptInvite roomId eventId q.body = .ok (e, next) ∧
      p.receive routes q = (.served (Json.object [("event", e.json)]), next) := by
  rw [hpath.receive_eq] at hstatus ⊢
  exact ok_of_answerChange hstatus

/-- An invite of a user of the peer is accepted. -/
theorem acceptInvite_ok {p : Peer} {sent : Json} {version : RoomVersion} {e : Event} {user : String}
    (hversion : sent.get? "room_version" = some (.str version.id))
    (hevent : sent.get? "event" = some e.json) (hparse : Event.ofPdu version e.json = .ok e)
    (hmember : e.membership = some "invite") (huser : e.stateKey = some user)
    (hserver : Ids.serverName? user = some p.serverName) :
    ∃ made, p.acceptInvite e.roomId e.id (some sent) = .ok made := by
  obtain ⟨m, hm⟩ := Event.obj_of_ofPdu hparse
  have hread : readInvite e.roomId e.id (some sent) = .ok (version, e) := by
    unfold readInvite
    simp [hversion, hevent, hparse, hmember, Json.string?, RoomVersion.ofId_id, bind, Except.bind,
      Except.mapError, pure, Except.pure]
  unfold acceptInvite
  simp [hread, huser, hserver, Event.addSignature_ok hm, bind, Except.bind, Except.mapError, pure,
    Except.pure]

/-! ## Answering -/

/-- What a server sent as an invite and what it is answered with, read as events: the invite that
the path names, and the same event with further signatures. -/
structure ReturnsInvite (eventId : String) (sent answer : Json) (version : RoomVersion)
    (e f : Event) : Prop where
  room : sent.get? "room_version" = some (.str version.id)
  event : sent.get? "event" = some e.json
  accepted : Event.ofPdu version e.json = .ok e
  id : e.id = eventId
  returned : answer.get? "event" = some f.json
  cosigned : e.Cosigned f

/-- The text of an answer is read as the answer, as its numbers are those that were sent. -/
theorem read?_returned {version : RoomVersion} {m : Members} {e f : Event}
    (hparse : Event.ofPdu version (.obj m) = .ok e)
    (htidy : (Json.obj m).Tidy (Json.maxDepth - 1))
    (hnumbers : version.strictJson = false → (Json.obj m).Integral)
    {payload : List UInt8} {signers : List Identity}
    (hf : f.json = .obj (cosigned payload signers m)) :
    Json.read? (PeerAnswer.served (Json.object [("event", f.json)])).text =
      some (Json.object [("event", f.json)]) := by
  have hintegral : (Json.obj m).Integral := by
    cases hversion : version.strictJson with
    | false => exact hnumbers hversion
    | true =>
      obtain ⟨_, -, -, hstrict, -, -⟩ := Event.ofPdu_ok.mp hparse
      exact Json.integral_of_strict _ (hstrict hversion)
  have hreadable : (Json.obj m).Readable (Json.maxDepth - 1) :=
    ⟨htidy.ordered, hintegral, htidy.nested⟩
  have hsigned : f.json.Readable (Json.maxDepth - 1) := by
    rw [hf]
    show (Json.obj _).Readable (123 + 3)
    exact readable_cosigned hreadable
  exact (Json.readable_object [("event", f.json)]
    (List.forall_mem_singleton.mpr hsigned)).read?_canonical

/-- Signing never changes what an event is. Whichever servers sign an accepted event, one after the
other, its JSON is accepted as an event with the same id and the same fields, whose content hash is
right, and differs from the original only in the signatures. So a server that invites a user of a
peer is answered with the invite that it sent; and the text of the answer is read as that answer if
the numbers in the event are integers, as they have to be in most versions. -/
theorem cosigning_keeps_event :
    (∀ version pdu e, Event.ofPdu version pdu = .ok e → pdu.Ordered → ∀ signers : List Identity,
      ∃ f, signers.foldlM (fun f s => f.addSignature s) e = .ok f ∧ e.Cosigned f) ∧
    ∀ routes p q text roomId eventId, q.body = Json.read? text →
      Reaches routes q .invite [roomId, eventId] → (receive routes p q).1.status = 200 →
        ∃ sent answer version e f, Json.read? text = some sent ∧
          (receive routes p q).1 = .served answer ∧
          ReturnsInvite eventId sent answer version e f ∧
          ((version.strictJson = false → e.json.Integral) →
            Json.read? (PeerAnswer.served answer).text = some answer) := by
  constructor
  · intro version pdu e h hordered signers
    obtain ⟨m, rfl⟩ := Event.obj_of_ofPdu h
    obtain ⟨f, hrun, hf, -⟩ := Event.cosigned_of_ofPdu h hordered.1 signers
    exact ⟨f, hrun, hf⟩
  · intro routes p q text roomId eventId hbody hpath hstatus
    obtain ⟨signed, next, haccept, hanswer⟩ := invited_of_status hpath hstatus
    obtain ⟨version, e, hread, -, hsign, -⟩ := acceptInvite_spec haccept
    obtain ⟨sent, pdu, hsent, hversion, hevent, hparse, hid, -⟩ := readInvite_ok hread
    rw [hbody] at hsent
    -- one level of nesting is spent on the body around the event
    have htidy : pdu.Tidy (Json.maxDepth - 1) := (Json.tidy_of_read? hsent).get? hevent
    obtain ⟨m, rfl⟩ := Event.obj_of_ofPdu hparse
    obtain ⟨f, hrun, hcosigned, hf⟩ := Event.cosigned_of_ofPdu hparse htidy.ordered.1 [p.identity]
    have hsame : signed = f := by
      rw [List.foldlM_cons, hsign] at hrun
      exact Except.ok.inj hrun
    subst hsame
    obtain ⟨hjson, -⟩ := Event.json_of_ofPdu hparse
    refine ⟨sent, _, version, e, signed, hsent, congrArg Prod.fst hanswer,
      ⟨hversion, hjson ▸ hevent, hjson ▸ hparse, hid, rfl, hcosigned⟩, fun hnumbers => ?_⟩
    exact read?_returned hparse htidy (fun hv => hjson ▸ hnumbers hv) hf

/-! ### A user of the host is invited -/

def invitation : UnsignedEvent :=
  let fields : EventFields := ⟨"!r:b", "@u:b", "m.room.member", some "@v:a",
    .obj [("membership", .str "invite")], [], [], 1, 1⟩
  ⟨.default, fields, Room.protoOf .default fields "b"⟩

/-- The invite as the guest signs it. -/
def invite : Event := guest.identity.signEvent invitation

theorem ofPdu_invite : Event.ofPdu .default invite.json = .ok invite :=
  Event.ofPdu_signEvent (u := invitation) rfl (fun _ => rfl) _

theorem readable_invite : invite.json.Readable 3 := by
  have hcontent : (Json.obj [("membership", .str "invite")]).Readable 2 :=
    Json.readable_object [("membership", _)] (by simp)
  have hone : (Json.int 1).Readable 2 := Json.readable_of_safe (by unfold Json.Safe; decide) 2
  have hproto : (Json.obj invitation.proto).Readable 3 :=
    Room.readable_protoOf (f := invitation.fields) hcontent hone hone .default "b"
  exact Identity.readable_signEvent hproto _

/-- What the guest sends along with its invite. -/
def inviteBody : Json :=
  Json.object [("event", invite.json), ("room_version", .str RoomVersion.default.id)]

def inviteRequest : Outbound :=
  ⟨"PUT", "a", ["_matrix", "federation", "v2", "invite", "!r:b", invite.id], [], some inviteBody⟩

theorem toRoot_inviteRequest :
    inviteRequest.ToRoot guest.identity [("a", "http://a")] hostRoot where
  base := toRoot_makeJoin.base
  web := toRoot_makeJoin.web
  path := rfl
  noQuery := rfl
  names := toRoot_makeJoin.names
  nonempty := List.cons_ne_nil _ _
  segments := by
    have hwords : ∀ t ∈ ["_matrix", "federation", "v2", "invite", "!r:b"],
        Url.IsSegment (Url.isSpecial hostRoot.scheme) t := by decide +kernel
    have hid := isSegment_eventId (Url.isSpecial hostRoot.scheme) .default invite.json
    have hall := List.forall_mem_append.mpr ⟨hwords, List.forall_mem_singleton.mpr hid⟩
    exact hall
  query := fun _ h => (nomatch h)
  method := by decide

def inviting : Inbound := ⟨1, "PUT", .ofText (inviteRequest.urlAt hostRoot).target, some inviteBody⟩

theorem reaches_inviting :
    Reaches (Routes.ofBundles [.invite]) inviting .invite ["!r:b", invite.id] := by
  have hwords : ∀ special, ["_matrix", "federation", "v2", "invite"].map
      (Url.encodeSegment special) = Route.invite.path.words.map String.toList := by decide +kernel
  have hserves : Route.invite.serves "PUT" = true := by decide
  have hfind := Routes.find?_of_serves hserves
    (toRoot_inviteRequest.match?_ok (p := Route.invite.path) (hwords _) rfl) []
  exact (toRoot_inviteRequest.delivered hfind rfl 1).reaches

theorem get?_inviteBody :
    inviteBody.get? "room_version" = some (.str RoomVersion.default.id) ∧
      inviteBody.get? "event" = some invite.json := by
  unfold inviteBody Json.object Json.get? Table.ofList
  simp only [List.foldl_cons, List.foldl_nil, Table.find?_insert]
  simp

theorem status_inviting : (host.receive (Routes.ofBundles [.invite]) inviting).1.status = 200 := by
  obtain ⟨⟨signed, next⟩, hmade⟩ := acceptInvite_ok (p := host) get?_inviteBody.1 get?_inviteBody.2
    ofPdu_invite rfl rfl (by decide : Ids.serverName? "@v:a" = some "a")
  have hanswer : Endpoint.invite.answer host inviting ["!r:b", invite.id] =
      host.answerChange (host.acceptInvite "!r:b" invite.id inviting.body)
        (fun signed => Json.object [("event", signed.json)]) := rfl
  have hroom : invite.roomId = "!r:b" := rfl
  rw [hroom] at hmade
  rw [reaches_inviting.receive_eq, hanswer, inviting, hmade]
  rfl

/-- A message that two more servers sign is the same message, and the guest gets its invite back. -/
theorem cosigning_keeps_greeting :
    (∃ e f, Event.ofPdu .v5 (.obj signedGreeting) = .ok e ∧
      twoSigners.foldlM (fun f s => f.addSignature s) e = .ok f ∧ e.Cosigned f) ∧
    ∃ answer f, (host.receive (Routes.ofBundles [.invite]) inviting).1 = .served answer ∧
      ReturnsInvite invite.id inviteBody answer .default invite f := by
  obtain ⟨hsigned, hreturned⟩ := cosigning_keeps_event
  constructor
  · have haccepted : Event.ofPdu .v5 (.obj signedGreeting) = .ok _ :=
      Event.ofPdu_signEvent (u := Homeserver.greeting) rfl (fun _ => rfl) _
    obtain ⟨f, hrun, hf⟩ :=
      hsigned _ _ _ haccepted readable_signedGreeting.ordered twoSigners
    exact ⟨_, f, haccepted, hrun, hf⟩
  · have hreadable : inviteBody.Readable 4 :=
      Json.readable_object [("event", invite.json), ("room_version", _)]
        (by simpa using readable_invite)
    have htext := (hreadable.mono (by decide)).read?_canonical
    obtain ⟨sent, answer, version, e, f, hsent, hanswer, hreturns, -⟩ :=
      hreturned (Routes.ofBundles [.invite]) host inviting inviteBody.canonical "!r:b" invite.id
        htext.symm reaches_inviting status_inviting
    cases htext.symm.trans hsent
    refine ⟨answer, f, hanswer, ?_⟩
    -- the body tells the version and the event
    cases RoomVersion.id_inj (Json.str.inj (Option.some.inj
      (get?_inviteBody.1.symm.trans hreturns.room)))
    have hjson : invite.json = e.json :=
      Option.some.inj (get?_inviteBody.2.symm.trans hreturns.event)
    cases Except.ok.inj (ofPdu_invite.symm.trans (hjson ▸ hreturns.accepted))
    exact hreturns

end Peer

end Homeserver
