/-
Requests of one peer that another one answers. What HTTP has to carry of a request and its answer
is said once, and a request that is sent to the root of a server is carried to the route whose words
its path starts with, if what is served for it has a text that is read back.
-/
import Homeserver.Peer.Outbound
import Homeserver.Peer.Service
import Homeserver.Proofs.Bytes.Base64
import Homeserver.Proofs.Json.RoundTrip
import Homeserver.Proofs.Net.Url
import Homeserver.Proofs.Result

namespace Homeserver

/-! ## Headers -/

theorem isHeaderValue_append (s t : String) :
    isHeaderValue (s ++ t) = (isHeaderValue s && isHeaderValue t) := by
  unfold isHeaderValue
  rw [String.toList_append, List.all_append]

theorem isHeaderValue_encode (a : Base64.Alphabet) (bytes : List UInt8) :
    isHeaderValue (Base64.encode a bytes) = true := by
  have hchar : ∀ n < 64, (decide (a.char n = '\t') ||
      (decide (32 ≤ (a.char n).toNat) && decide ((a.char n).toNat ≠ 127))) = true := by
    cases a <;> decide
  unfold isHeaderValue Base64.encode
  rw [String.toList_ofList, List.all_eq_true]
  intro c hc
  obtain ⟨n, hn, rfl⟩ := Base64.mem_encodeBytes hc
  exact hchar n hn

/-! ## Event ids in paths -/

/-- An event id makes a segment of its own. -/
theorem isSegment_eventId (special : Bool) (version : RoomVersion) (event : Json) :
    Url.IsSegment special (eventId version event) := by
  have htext : (eventId version event).toList = '$' :: Base64.encodeBytes (idAlphabet version)
      (Digest.Sha256.digest
        (Json.obj (signedMembers (redact version event).membersD)).canonicalBytes) := by
    unfold eventId Base64.encode
    rw [String.toList_append, String.toList_ofList, String.toList_ofList]
    rfl
  generalize Digest.Sha256.digest _ = digest at htext
  have hkept : Url.keepsInSegment special '$' = true := by cases special <;> decide
  have hencoded : Url.encodeSegment special (eventId version event) = '$' ::
      Percent.encode (Url.keepsInSegment special)
        (Base64.encodeBytes (idAlphabet version) digest) := by
    unfold Url.encodeSegment Percent.encode
    rw [htext, List.flatMap_cons, Percent.encodeChar, if_pos hkept]
    rfl
  refine ⟨by rw [htext]; exact List.cons_ne_nil _ _, ?_, ?_, ?_⟩
  · rw [htext, List.forall_mem_cons]
    refine ⟨by decide, fun c hc => ?_⟩
    obtain ⟨n, hn, rfl⟩ := Base64.mem_encodeBytes hc
    have hchar : ∀ a : Base64.Alphabet, ∀ n < 64, Url.isIgnored (a.char n) = false := by
      intro a
      cases a <;> decide
    exact hchar _ n hn
  · rw [hencoded]
    simp [Url.isSingleDot]
  · rw [hencoded]
    simp [Url.isDoubleDot]

/-- A server with printable names authorises its requests. -/
theorem Identity.authorization_ok {s : Identity} (hname : isHeaderValue s.serverName = true)
    (hkey : isHeaderValue s.keyId = true) {destination : String}
    (hdestination : isHeaderValue destination = true) (method uri : String)
    (content : Option Json) : ∃ value, s.authorization method uri destination content = .ok value ∧
      isHeaderValue value = true := by
  refine ⟨_, rfl, ?_⟩
  simp only [isHeaderValue_append, hname, hkey, hdestination, Identity.signBytes,
    isHeaderValue_encode, Bool.and_true]
  decide

/-! ## Routes -/

/-- A request is one for a service of a peer, with these parameters of its path. -/
def Reaches (routes : Routes) (q : Inbound) (service : Endpoint) (parameters : List String) : Prop :=
  ∃ route values, routes.find? q.method q.path = some (route, values) ∧
    PathPattern.decode route.path.parameters values = .ok parameters ∧ route.endpoint = service

theorem Reaches.receive_eq {routes : Routes} {q : Inbound} {service : Endpoint}
    {parameters : List String} (h : Reaches routes q service parameters) (host : Peer) :
    host.receive routes q = service.answer host q parameters := by
  obtain ⟨route, values, hfind, hdecode, rfl⟩ := h
  unfold Peer.receive
  simp only [hfind, hdecode]

theorem Routes.find?_of_serves {route : Route} {method : String} {path : List Char}
    {values : List (List Char)} (hserves : route.serves method = true)
    (hmatch : route.path.match? path = some values) (rest : Routes) :
    Routes.find? (route :: rest) method path = some (route, values) := by
  unfold Routes.find?
  rw [List.findSome?_cons, if_pos hserves, hmatch]
  rfl

theorem Routes.find?_of_not_serves {route : Route} {method : String}
    (h : route.serves method = false) (path : List Char) (rest : Routes) :
    Routes.find? (route :: rest) method path = Routes.find? rest method path := by
  unfold Routes.find?
  rw [List.findSome?_cons, if_neg (by rw [h]; exact Bool.false_ne_true)]

/-! ## What HTTP carries -/

/-- HTTP delivers a request to a route of a peer: its path leads to the route with the segments
behind the route's words as they were sent, and its query and its body arrive as they were sent. -/
structure Delivered (o : Outbound) (routes : Routes) (route : Route) (q : Inbound) : Prop where
  path : ∃ values, routes.find? q.method q.path = some (route, values) ∧
    PathPattern.decode route.path.parameters values =
      .ok (o.segments.drop route.path.words.length)
  query : Form.decode q.query = o.query
  body : q.body = o.body

/-- HTTP carries a request of a server to a route of a peer, and the answer back: a value that is
served is read as it was served. -/
structure Carried (o : Outbound) (s : Identity) (destinations : Destinations) (routes : Routes)
    (route : Route) (host : Peer) (q : Inbound) (reply : Reply) : Prop
    extends Delivered o routes route q where
  answer : ∀ v, (host.receive routes q).1 = .served v →
    (o.ask s destinations (some reply)).1 = .ok v

theorem Delivered.reaches {o : Outbound} {routes : Routes} {route : Route} {q : Inbound}
    (h : Delivered o routes route q) :
    Reaches routes q route.endpoint (o.segments.drop route.path.words.length) := by
  obtain ⟨values, hfind, hdecode⟩ := h.path
  exact ⟨route, values, hfind, hdecode, rfl⟩

/-! ## Requests to the root of a server -/

namespace Outbound

/-- The URL of a request to the root of a server. -/
def urlAt (o : Outbound) (root : Url) : Url :=
  { root with
    path := .segments (o.segments.map (Url.encodeSegment (Url.isSpecial root.scheme)))
    query := if o.query.isEmpty then none else some (Form.encode o.query) }

/-- A request that goes to the root of a known server and can be written as it is meant. -/
structure ToRoot (o : Outbound) (s : Identity) (destinations : Destinations) (root : Url) : Prop where
  base : ∃ text, Table.find? o.destination destinations = some text ∧ Url.read text = .ok root
  web : root.isWeb = true
  path : root.path = .segments [[]]
  noQuery : root.query = none
  names : isHeaderValue s.serverName = true ∧ isHeaderValue s.keyId = true ∧
    isHeaderValue o.destination = true
  nonempty : o.segments ≠ []
  segments : ∀ t ∈ o.segments, Url.IsSegment (Url.isSpecial root.scheme) t
  query : ∀ pair ∈ o.query, Percent.isAscii pair.1 = true ∧ Percent.isAscii pair.2 = true
  method : o.method ≠ "HEAD"

section

variable {o : Outbound} {s : Identity} {destinations : Destinations} {root : Url}

/-- A request whose answer was read has been made as it is meant. -/
theorem ask_sent {reply : Option Reply} {v : Json} (h : (o.ask s destinations reply).1 = .ok v) :
    ∃ sent : Request, (o.ask s destinations reply).2 = [sent] ∧ sent.method = o.method ∧
      sent.body = o.body := by
  unfold ask at h ⊢
  dsimp only at h ⊢
  split at h
  · cases h
  · cases h
  · rename_i u request reply hprepared
    obtain ⟨_, -, hprepared⟩ := bind_ok.mp hprepared
    obtain ⟨signed, hsigned, hprepared⟩ := bind_ok.mp hprepared
    cases hprepared
    unfold sign at hsigned
    obtain ⟨authorization, -, hsigned⟩ := bind_ok.mp hsigned
    obtain ⟨-, hsigned⟩ := unless_ok.mp hsigned
    cases hsigned
    exact ⟨_, rfl, rfl, rfl⟩

theorem ToRoot.url_ok (h : o.ToRoot s destinations root) :
    o.url destinations = .ok (o.urlAt root) := by
  obtain ⟨text, hfind, hread⟩ := h.base
  have hquery : ({ root with
      path := .segments (o.segments.map (Url.encodeSegment (Url.isSpecial root.scheme))) }
        : Url).addQuery o.query = o.urlAt root := by
    unfold Url.addQuery urlAt
    cases o.query with
    | nil => simp [h.noQuery]
    | cons pair pairs => simp [h.noQuery]
  unfold url
  simp only [hfind, hread, Url.extend?_root h.path h.nonempty h.segments, bind, Except.bind,
    Except.mapError, pure, Except.pure, hquery]

/-- The other server's answer is what the peer reads, if it is served and can be read back. -/
theorem ToRoot.ask_ok (h : o.ToRoot s destinations root) {v : Json}
    (hv : v.Readable Json.maxDepth) :
    (o.ask s destinations (some ((PeerAnswer.served v).reply o.method))).1 = .ok v := by
  obtain ⟨value, hauthorized, hvalue⟩ := Identity.authorization_ok h.names.1 h.names.2.1 h.names.2.2
    o.method (o.urlAt root).target o.body
  have hweb : (o.urlAt root).isWeb = true := h.web
  have hbody : goesWithoutBody o.method 200 = false := by simp [goesWithoutBody, h.method]
  unfold ask sign
  simp only [h.url_ok, hauthorized, hvalue, hweb, bind, Except.bind, Except.mapError, pure,
    Except.pure, PeerAnswer.reply, PeerAnswer.status, PeerAnswer.text, Reply.received]
  simp [readAnswer, isSuccess, hbody, hv.read?_canonical]

/-- The path of a request to the root of a server matches the words with which it starts. -/
theorem ToRoot.match?_ok (h : o.ToRoot s destinations root) {p : PathPattern}
    (hwords : (o.segments.take p.words.length).map
      (Url.encodeSegment (Url.isSpecial root.scheme)) = p.words.map String.toList)
    (hlength : (o.segments.drop p.words.length).length = p.parameters.length) :
    p.match? (o.urlAt root).pathText = some ((o.segments.drop p.words.length).map
      (Url.encodeSegment (Url.isSpecial root.scheme))) := by
  unfold PathPattern.match?
  rw [PathPattern.pieces?_pathText rfl (mt List.map_eq_nil_iff.mp h.nonempty)
    (List.forall_mem_map.mpr fun t _ hc => (Url.mem_encodeSegment hc).1 rfl)]
  exact PathPattern.matchPieces_encoded h.segments hwords hlength

/-- A request to the root of a server is delivered to the route that has its words. -/
theorem ToRoot.delivered (h : o.ToRoot s destinations root) {routes : Routes} {route : Route}
    (hfind : routes.find? o.method (o.urlAt root).pathText = some (route,
      (o.segments.drop route.path.words.length).map
        (Url.encodeSegment (Url.isSpecial root.scheme))))
    (hlength : (o.segments.drop route.path.words.length).length = route.path.parameters.length)
    (time : Int) :
    Delivered o routes route ⟨time, o.method, .ofText (o.urlAt root).target, o.body⟩ := by
  have hquery : ∀ q, (o.urlAt root).query = some q → '#' ∉ q := by
    intro q hq
    change (if o.query.isEmpty then none else some (Form.encode o.query)) = some q at hq
    split at hq
    · cases hq
    · cases hq
      exact Form.hash_not_mem_encode o.query
  have htarget := Target.ofText_target (u := o.urlAt root) rfl
    (mt List.map_eq_nil_iff.mp h.nonempty)
    (List.forall_mem_map.mpr fun t _ =>
      ⟨fun hc => (Url.mem_encodeSegment hc).2.1 rfl, fun hc => (Url.mem_encodeSegment hc).2.2 rfl⟩)
    hquery
  rw [htarget]
  refine ⟨⟨_, hfind, PathPattern.decode_encoded _ hlength⟩, ?_, rfl⟩
  show Form.decode ((if o.query.isEmpty then none else some (Form.encode o.query)).getD []) = _
  cases hquery : o.query with
  | nil => decide
  | cons pair pairs => exact Form.decode_encode (hquery ▸ h.query)

/-- A request to the root of a server is carried if it is delivered and what is served for it can be
read back. -/
theorem ToRoot.carried (h : o.ToRoot s destinations root) {routes : Routes} {route : Route}
    {host : Peer} {q : Inbound} (hq : Delivered o routes route q)
    (hserved : ∀ v, (host.receive routes q).1 = .served v → v.Readable Json.maxDepth) :
    Carried o s destinations routes route host q ((host.receive routes q).1.reply o.method) := by
  refine ⟨hq, fun v hv => ?_⟩
  rw [hv]
  exact h.ask_ok (hserved v hv)

end

end Outbound

end Homeserver
