/-
Events as this server signs them. Neither the hashes nor the signature count what signing adds, so
a signed event is consistent in itself whatever its JSON was before; and where its fields are those
of its JSON, it is read back as it is.
-/
import Homeserver.Proofs.Event.Identifier
import Homeserver.Proofs.Identity
import Homeserver.Proofs.Room.Growth

namespace Homeserver

/-! ## Consistent events -/

/-- An event that a server signed is consistent: it names its content hash, has the id of its JSON
and bears a signature of the server. -/
structure Event.Consistent (e : Event) (s : Identity) : Prop where
  hash : (e.json.get? "hashes").bind (·.get? "sha256") = some (.str (contentHash e.json))
  id : e.id = eventId e.version e.json
  signature : e.verifySignature s.serverName s.keyId s.key.publicKey = .ok ()

/-- A redacted event bears the signatures of the event. -/
theorem path?_redactMembers (version : RoomVersion) (m : Members) (serverName keyId : String) :
    (Json.obj (redactMembers version m)).path? ["signatures", serverName, keyId] =
      (Json.obj m).path? ["signatures", serverName, keyId] := by
  rw [path?_signatures, path?_signatures, find?_redactMembers, if_neg (by decide),
    if_pos (keeps_signatures version)]

namespace Identity

variable {u : UnsignedEvent}

/-- What is signed of an event does not change when the signature is set. -/
theorem signedBytes_signEvent (h : Table.Sorted u.proto) (s : Identity) {hash : String}
    (hhash : contentHash (.obj u.proto) = hash) : signedBytes u.version (s.signEvent u).json =
      payloadOf (redactMembers u.version
        (Table.insert "hashes" (.obj [("sha256", .str hash)]) u.proto)) := by
  subst hhash
  exact signedBytes_insertSignature (h.insert "hashes" _) u.version _ _ _

/-- A signed event bears a signature of the bytes of which its id is the hash. -/
theorem path?_signEvent (h : Table.Sorted u.proto) (s : Identity) :
    (redact u.version (s.signEvent u).json).path? ["signatures", s.serverName, s.keyId] =
      some (.str (s.signBytes (signedBytes u.version (s.signEvent u).json))) := by
  rw [signedBytes_signEvent h s rfl]
  exact (path?_redactMembers _ _ _ _).trans (path?_insertSignature_self _ _ _ _)

theorem consistent_signEvent (h : Table.Sorted u.proto) {s : Identity}
    (hkey : s.key.Attests (signedBytes u.version (s.signEvent u).json)) :
    (s.signEvent u).Consistent s where
  hash := congrArg (fun v => v.bind (·.get? "sha256")) (Event.find?_hashes_signEvent u s)
  id := rfl
  signature := verifyJson_ok (path?_signEvent h s) hkey

/-- A server with a key. -/
def signer : Identity := ⟨"a", "ed25519:1", ⟨List.replicate 32 7⟩⟩

end Identity

namespace Room

open Identity (signer)

theorem sorted_builtOn (r : Room) (origin : String) (now : Int) (t : EventTemplate)
    (parents : List String) (depth : Int) :
    Table.Sorted (r.builtOn origin now t parents depth).proto :=
  sorted_applyOverrides (sorted_protoOf _ _ _) _

/-- Whatever a room builds is consistent once it is signed, also of a raw template and with any
overrides. -/
theorem consistent_of_buildOn {r : Room} {origin : String} {now : Int} {t : EventTemplate}
    {parents : List String} {u : UnsignedEvent} (h : r.buildOn origin now t parents = .ok u)
    (s : Identity) (hkey : s.key.Attests (signedBytes u.version (s.signEvent u).json)) :
    (s.signEvent u).Consistent s := by
  obtain ⟨-, -, depth, -, rfl⟩ := buildOn_ok.mp h
  exact Identity.consistent_signEvent (sorted_builtOn _ _ _ _ _ _) hkey

/-- A creation that drops whatever an event has and brings hashes and signatures of its own. -/
def hollow : EventTemplate :=
  let dropped := ["auth_events", "content", "depth", "origin", "origin_server_ts", "prev_events",
    "room_id", "sender", "state_key", "type"]
  let own : Members := [("hashes", .bool true), ("signatures", .str ""), ("unsigned", .int 1)]
  { EventTemplate.state "m.room.create" "@u:a" "" .null with
    raw := true
    overrides := Table.ofList (dropped.map (fun key => (key, .null)) ++ own) }

/-- What a room without events builds of it. -/
def hollowStart : UnsignedEvent := (Room.new "!r:a" .default).builtOn "a" 1 hollow [] 1

theorem signer_attests :
    signer.key.Attests (signedBytes hollowStart.version (signer.signEvent hollowStart).json) := by
  have hsorted : Table.Sorted hollowStart.proto := sorted_builtOn _ _ _ _ _ _
  have hhash : contentHash (.obj hollowStart.proto) =
      "RBNvo1WzZ4oRRq0W9+hknpT7T8If536DEMBg9hyq/4o" := by
    rw [contentHash_eq]
    decide +kernel
  rw [Identity.signedBytes_signEvent hsorted signer hhash, payloadOf, Json.canonicalBytes_eq]
  decide +kernel

/-- The room builds it, and it is consistent once it is signed. -/
theorem consistent_of_hollow :
    (Room.new "!r:a" .default).buildOn "a" 1 hollow [] = .ok hollowStart ∧
      signer.key.Attests (signedBytes hollowStart.version (signer.signEvent hollowStart).json) ∧
      (signer.signEvent hollowStart).Consistent signer := by
  have hbuild : (Room.new "!r:a" .default).buildOn "a" 1 hollow [] = .ok hollowStart := rfl
  exact ⟨hbuild, signer_attests, consistent_of_buildOn hbuild signer signer_attests⟩

end Room

/-! ## Reading back what was signed -/

/-- An integer of 64 bits with sign. -/
def IsInt64 (n : Int) : Prop := Int64.minValue.toInt ≤ n ∧ n ≤ Int64.maxValue.toInt

instance (n : Int) : Decidable (IsInt64 n) := inferInstanceAs (Decidable (_ ∧ _))

/-- Where an event comes from that is to be signed as it is: a room builds it of a template that
overrides nothing, or another server proposes it. Depths and times have 64 bits. -/
inductive UnsignedEvent.Sourced (u : UnsignedEvent) : Prop where
  | built (r : Room) (origin : String) (now : Int) (t : EventTemplate) (parents : List String)
      (build : r.buildOn origin now t parents = .ok u) (plain : t.overrides = [])
      (object : t.content.isObject = true) (depth : IsInt64 u.fields.depth)
      (time : IsInt64 u.fields.timestamp)
  | proposed (version : RoomVersion) (proto : Json) (origin : String) (now : Int)
      (propose : UnsignedEvent.ofProto version proto origin now = .ok u)

/-- The fields of a built event, as the room knows them, are those that its JSON has. -/
theorem Room.read_of_buildOn {r : Room} {origin : String} {now : Int} {t : EventTemplate}
    {parents : List String} {u : UnsignedEvent} (h : r.buildOn origin now t parents = .ok u)
    (hplain : t.overrides = []) (hobject : t.content.isObject = true)
    (hdepth : IsInt64 u.fields.depth) (htime : IsInt64 u.fields.timestamp) :
    EventFields.read u.proto = .ok u.fields := by
  obtain ⟨-, -, depth, -, rfl⟩ := buildOn_ok.mp h
  have hproto : (r.builtOn origin now t parents depth).proto =
      protoOf r.version (r.builtOn origin now t parents depth).fields origin := by
    unfold builtOn
    rw [hplain]
    rfl
  rw [hproto]
  exact read_protoOf_of_int? hobject (Json.int?_eq_some.mpr ⟨rfl, hdepth⟩)
    (Json.int?_eq_some.mpr ⟨rfl, htime⟩) _ _

theorem UnsignedEvent.read_of_ofProto {version : RoomVersion} {proto : Json} {origin : String}
    {now : Int} {u : UnsignedEvent} (h : ofProto version proto origin now = .ok u) :
    EventFields.read u.proto = .ok u.fields := by
  cases proto with
  | obj members =>
    obtain ⟨fields, hread, h⟩ := bind_ok.mp h
    cases h
    exact hread
  | _ => cases h

theorem UnsignedEvent.Sourced.read {u : UnsignedEvent} (h : u.Sourced) :
    EventFields.read u.proto = .ok u.fields := by
  cases h with
  | built r origin now t parents build plain object depth time =>
    exact Room.read_of_buildOn build plain object depth time
  | proposed version proto origin now propose => exact read_of_ofProto propose

/-- Reading inverts signing: the JSON of a signed event is accepted iff it is strict or need not be,
and it is accepted as the event that was signed. -/
theorem UnsignedEvent.Sourced.ofPdu_signed {u : UnsignedEvent} (h : u.Sourced) (s : Identity) :
    ((∃ e, Event.ofPdu u.version (s.signEvent u).json = .ok e) ↔
        u.version.strictJson = false ∨ (s.signEvent u).json.checkStrict = .ok ()) ∧
      ∀ e, Event.ofPdu u.version (s.signEvent u).json = .ok e → e = s.signEvent u := by
  have haccepted {e : Event} := Event.ofPdu_signEvent_of_read h.read s (e := e)
  refine ⟨?_, fun e he => (haccepted.mp he).1⟩
  rw [Json.checkStrict_ok, ← Bool.not_eq_true, ← imp_iff_not_or]
  constructor
  · rintro ⟨e, he⟩
    exact (haccepted.mp he).2
  · intro hstrict
    exact ⟨_, haccepted.mpr ⟨rfl, hstrict⟩⟩

/-- A creation as a room may start with. -/
def plainStart : UnsignedEvent :=
  (Room.new "!r:a" .default).builtOn "a" 1 (.state "m.room.create" "@u:a" "" (.obj [])) [] 1

theorem plainStart_sourced : plainStart.Sourced :=
  .built (Room.new "!r:a" .default) "a" 1 (.state "m.room.create" "@u:a" "" (.obj [])) [] rfl rfl rfl
    (by decide) (by decide)

theorem UnsignedEvent.Sourced.ofPdu_signed_plainStart :
    plainStart.Sourced ∧
      ((∃ e, Event.ofPdu .default (Identity.signer.signEvent plainStart).json = .ok e) ↔
        RoomVersion.default.strictJson = false ∨
          (Identity.signer.signEvent plainStart).json.checkStrict = .ok ()) ∧
      ∀ e, Event.ofPdu .default (Identity.signer.signEvent plainStart).json = .ok e →
        e = Identity.signer.signEvent plainStart :=
  ⟨plainStart_sourced, plainStart_sourced.ofPdu_signed Identity.signer⟩

end Homeserver
