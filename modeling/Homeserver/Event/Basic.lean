/-
Events: unsigned ones with the JSON that is to be signed, and signed ones with their id. A signed
event comes from an unsigned one or from JSON that was received, and never changes but for
signatures added to it.
-/
import Homeserver.Event.Fields
import Homeserver.Identity

namespace Homeserver

/-! ## Unsigned events -/

/-- An event with its place in a room, neither hashed nor signed. -/
structure UnsignedEvent where
  version : RoomVersion
  fields : EventFields
  proto : Members
  deriving Repr

namespace UnsignedEvent

/-- The event that another server proposes, as it is to be signed by this server at this time. -/
def ofProto (version : RoomVersion) (proto : Json) (origin : String) (now : Int) :
    Except EventError UnsignedEvent :=
  match proto with
  | .obj members => do
    let bare := Table.erase "event_id" (Table.erase "hashes" (Table.erase "signatures" members))
    let named := if version.updatedRedaction then bare
      else Table.insert "origin" (.str origin) bare
    let proto := Table.insert "origin_server_ts" (.int now) named
    let fields ← EventFields.read proto
    return { version, fields, proto }
  | _ => .error (.invalid .protoNotObject)

/-- The event as it is offered to another server for signing. -/
def json (e : UnsignedEvent) : Json := .obj e.proto

end UnsignedEvent

/-! ## Signed events -/

/-- An event as servers exchange it. -/
structure Event where
  id : String
  version : RoomVersion
  fields : EventFields
  json : Json
  deriving Repr

namespace Event

/-- The content hash that an event claims to have. -/
def claimedHash? (members : Members) : Option String :=
  ((Table.find? "hashes" members).bind (·.get? "sha256")).bind Json.string?

/-- Accepts an event that was received: its fields must be of the right types, and its content must
have the hash that it claims. -/
def ofPdu (version : RoomVersion) (pdu : Json) : Except EventError Event :=
  match pdu with
  | .obj members => do
    let fields ← EventFields.read members
    if !((Table.find? "signatures" members).any Json.isObject) then
      throw (.invalid (.missingField "signatures"))
    let some claimed := claimedHash? members
      | throw (.invalid (.missingField "hashes.sha256"))
    if version.strictJson then
      pdu.checkStrict.mapError (fun e => EventError.invalid (.ofNotStrict e))
    if claimed ≠ contentHash pdu then
      throw (.invalid .contentHash)
    return { id := eventId version pdu, version, fields, json := pdu }
  | _ => .error (.invalid .pduNotObject)

/-! ### Views -/

def roomId (e : Event) : String := e.fields.roomId
def sender (e : Event) : String := e.fields.sender
def type (e : Event) : String := e.fields.type
def stateKey (e : Event) : Option String := e.fields.stateKey
def isState (e : Event) : Bool := e.fields.stateKey.isSome
def content (e : Event) : Json := e.fields.content
def prevEvents (e : Event) : List String := e.fields.prevEvents
def authEvents (e : Event) : List String := e.fields.authEvents
def depth (e : Event) : Int := e.fields.depth
def timestamp (e : Event) : Int := e.fields.timestamp

/-- The membership that the event sets, if it is a membership event. -/
def membership (e : Event) : Option String :=
  if e.type = "m.room.member" then (e.content.get? "membership").bind Json.string? else none

/-- The event as clients see it, with its id. -/
def jsonWithId (e : Event) : Json :=
  match e.json with
  | .obj members => .obj (Table.insert "event_id" (.str e.id) members)
  | v => v

/-- The event as it is shown to users who are not in the room. -/
def stripped (e : Event) : Json :=
  Json.object [
    ("type", .str e.type),
    ("state_key", Json.ofString? e.stateKey),
    ("sender", .str e.sender),
    ("content", e.content)]

/-! ### Signatures -/

/-- Adds a server's signature. -/
def addSignature (e : Event) (s : Identity) : Except EventError Event := do
  let payload ← signableBytes (redact e.version e.json)
  let members := insertSignature e.json.membersD s.serverName s.keyId (s.signBytes payload)
  return { e with json := .obj members }

/-- Accepts an event that bears a server's signature under a key. -/
def verifySignature (e : Event) (serverName keyId : String) (key : Ed25519.PublicKey) :
    Except EventError Unit :=
  verifyJson (redact e.version e.json) serverName keyId key

end Event

/-- Hashes and signs an event. -/
def Identity.signEvent (s : Identity) (e : UnsignedEvent) : Event :=
  let hashes := Json.obj [("sha256", .str (contentHash (.obj e.proto)))]
  let hashed := Table.insert "hashes" hashes e.proto
  let payload := (Json.obj (signedMembers (redactMembers e.version hashed))).canonicalBytes
  let signed := Json.obj (insertSignature hashed s.serverName s.keyId (s.signBytes payload))
  { id := eventId e.version signed, version := e.version, fields := e.fields, json := signed }

end Homeserver
