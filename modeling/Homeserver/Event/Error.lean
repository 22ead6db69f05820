/-
Why an event or a room is refused: one case for each cause, and their wording.
-/
import Homeserver.Json.Strict
import Homeserver.Room.Version
import Homeserver.Signature.Ed25519

namespace Homeserver

/-! ## Causes -/

/-- State without which an event cannot be built or a room not be joined. -/
inductive MissingState where
  /-- The room has no create event in its state. -/
  | create (room : String)
  /-- The state that came with a join has no create event. -/
  | createOfJoin (room : String)
  | described (text : String)
  deriving DecidableEq, Repr

/-- How an event fails to fit into a room's graph. -/
inductive GraphViolation where
  /-- A join belongs to another room than the one joined. -/
  | joinOfOtherRoom (event itsRoom room : String)
  | secondCreate (room : String)
  /-- A parent chosen for a new event is not recorded. -/
  | unknownParent (parent room : String)
  /-- A parent of an event is recorded no longer as an extremity, or not at all. -/
  | staleParentOf (parent event room : String)
  /-- A parent of an event is not recorded. -/
  | unknownParentOf (parent event room : String)
  | otherRoom (event itsRoom room : String)
  | duplicate (event room : String)
  /-- An event without parents comes to a room that has events. -/
  | secondRoot (event room : String)
  | wrongDepth (event : String) (depth expected : Int)
  | described (text : String)
  deriving DecidableEq, Repr

/-- How an event is malformed. -/
inductive InvalidEvent where
  /-- A template's content is no object. -/
  | templateContent (type : String)
  | notStrict (path : List Json.Step) (text : String)
  | memberWithoutTarget
  | memberWithoutMembership
  | joinRule (rule : String) (version : RoomVersion)
  | protoNotObject
  | pduNotObject
  | signedNotObject
  | missingField (key : String)
  | notInteger (key : String)
  | notEventIds (key : String)
  | contentNotObject
  | stateKeyNotString
  | contentHash
  | described (text : String)
  deriving DecidableEq, Repr

/-- Why a signature or a key is not accepted. -/
inductive BadSignature where
  | absent (server keyId : String)
  | notBase64
  | rejected (reason : Ed25519.Rejection)
  | keyNotBase64
  | keyLength
  /-- The key's bytes encode no point. -/
  | keyPoint
  | described (text : String)
  deriving DecidableEq, Repr

/-- Why an event or a room is refused. -/
inductive EventError where
  | unknownVersion (id : String)
  | missingState (cause : MissingState)
  | graph (cause : GraphViolation)
  | invalid (cause : InvalidEvent)
  | signature (cause : BadSignature)
  /-- A depth is greater than depths can be. What was asked for breaks off; nothing is answered. -/
  | overflow
  deriving DecidableEq, Repr

/-! ## Wording -/

namespace MissingState

def message : MissingState → String
  | create room => room ++ " has no m.room.create event"
  | createOfJoin room => "send_join state for " ++ room ++ " has no m.room.create event"
  | described text => text

end MissingState

namespace GraphViolation

def message : GraphViolation → String
  | joinOfOtherRoom event itsRoom room =>
    "join event " ++ event ++ " belongs to " ++ itsRoom ++ ", not " ++ room
  | secondCreate room => room ++ " already has a create event"
  | unknownParent parent room => "prev event " ++ parent ++ " is not in " ++ room
  | staleParentOf parent event room =>
    "prev event " ++ parent ++ " of " ++ event ++ " is not a forward extremity of " ++ room
  | unknownParentOf parent event room =>
    "prev event " ++ parent ++ " of " ++ event ++ " is not in " ++ room
  | otherRoom event itsRoom room =>
    "event " ++ event ++ " belongs to " ++ itsRoom ++ ", not " ++ room
  | duplicate event room => "event " ++ event ++ " already in " ++ room
  | secondRoot event room =>
    "event " ++ event ++ " has no prev_events but " ++ room ++ " is not empty"
  | wrongDepth event depth expected =>
    "event " ++ event ++ " has depth " ++ toString depth ++ ", expected " ++ toString expected
  | described text => text

end GraphViolation

namespace InvalidEvent

/-- The refusal of a value that is not strict. -/
def ofNotStrict (e : Json.NotStrict) : InvalidEvent := notStrict e.path e.message

def message : InvalidEvent → String
  | templateContent type => type ++ " content must be an object"
  | notStrict _ text => text
  | memberWithoutTarget => "m.room.member requires a state_key"
  | memberWithoutMembership => "m.room.member requires membership"
  | joinRule rule version =>
    "join rule '" ++ rule ++ "' not supported by room version " ++ version.id
  | protoNotObject => "proto event must be an object"
  | pduNotObject => "pdu must be an object"
  | signedNotObject => "signed value must be an object"
  | missingField key => "missing field '" ++ key ++ "'"
  | notInteger key => "field '" ++ key ++ "' must be an integer"
  | notEventIds key => "'" ++ key ++ "' must hold event ids"
  | contentNotObject => "content must be an object"
  | stateKeyNotString => "state_key must be a string"
  | contentHash => "content hash mismatch"
  | described text => text

end InvalidEvent

namespace BadSignature

def message : BadSignature → String
  | absent server keyId => "no signature by " ++ server ++ " " ++ keyId
  | notBase64 => "bad base64"
  | rejected .length => "signature error"
  | rejected .unreduced => "signature error: Cannot use scalar with high-bit set"
  | rejected .equation => "signature error: Verification equation was not satisfied"
  | keyNotBase64 => "bad key base64"
  | keyLength => "key must be 32 bytes"
  | keyPoint => "signature error: Cannot decompress Edwards point"
  | described text => text

end BadSignature

namespace EventError

def message : EventError → String
  | unknownVersion id => "unknown room version: " ++ id
  | missingState cause => "missing auth state: " ++ cause.message
  | graph cause => "graph violation: " ++ cause.message
  | invalid cause => "invalid event: " ++ cause.message
  | signature cause => "invalid signature: " ++ cause.message
  | overflow => "attempt to add with overflow"

end EventError

/-- The version with this identifier, or the refusal of an identifier of no supported version. -/
def RoomVersion.ofId (id : String) : Except EventError RoomVersion :=
  match ofId? id with
  | some v => .ok v
  | none => .error (.unknownVersion id)

end Homeserver
