/-
Why a peer refuses a request of another server: one case for each cause, with the code and the text
of the answer.
-/
import Homeserver.Event.Error
import Homeserver.Json.Basic

namespace Homeserver

/-! ## Causes -/

/-- What a request names that the peer does not have. -/
inductive Absent where
  | room (id : String)
  | roomAlias (name : String)
  | event (id : String)
  | described (text : String)
  deriving DecidableEq, Repr

/-- How the body of a request is malformed. -/
inductive BadBody where
  | missing (key : String)
  | notArray (key : String)
  | notEventIds (key : String)
  /-- The event has another id than the path names. -/
  | otherEvent (id pathId : String)
  /-- The event belongs to another room than the path names. -/
  | otherRoom (itsRoom room : String)
  | notMembership (membership : String)
  /-- The event or its room is not what the path names. -/
  | otherInvite (event room : String)
  | notInvite
  | described (text : String)
  deriving DecidableEq, Repr

/-- What is not allowed. -/
inductive Forbidden where
  | foreignInvitee (invitee server : String)
  | described (text : String)
  deriving DecidableEq, Repr

/-- Why a peer refuses a request. -/
inductive Refusal where
  | notFound (what : Absent)
  /-- The body is no JSON. -/
  | notJson (text : String)
  | badJson (cause : BadBody)
  | forbidden (cause : Forbidden)
  /-- The peer does not know the version. -/
  | unsupportedVersion (text : String)
  /-- The other server does not know the room's version, or the version has no such membership. -/
  | incompatibleVersion (id : String)
  /-- Nothing answers the request. -/
  | unrecognised (text : String)
  /-- A depth is greater than depths can be: handling breaks off, and there is no answer. -/
  | overflow
  | internal
  deriving DecidableEq, Repr

/-! ## Wording -/

namespace Absent

def message : Absent → String
  | room id => "unknown room " ++ id
  | roomAlias name => "room alias " ++ name ++ " not found"
  | event id => "event " ++ id ++ " not found"
  | described text => text

end Absent

namespace BadBody

def message : BadBody → String
  | missing key => "missing " ++ key
  | notArray key => key ++ " must be an array"
  | notEventIds key => key ++ " must hold event ids"
  | otherEvent id pathId => "event id " ++ id ++ " does not match " ++ pathId
  | otherRoom itsRoom room => "event belongs to " ++ itsRoom ++ ", not " ++ room
  | notMembership membership => "expected a " ++ membership ++ " membership event for its sender"
  | otherInvite event room =>
    "invite " ++ event ++ " for " ++ room ++ " does not match the request path"
  | notInvite => "event is not an invite"
  | described text => text

end BadBody

namespace Forbidden

def message : Forbidden → String
  | foreignInvitee invitee server => invitee ++ " is not a user on " ++ server
  | described text => text

end Forbidden

namespace Refusal

/-- The code by which other servers tell refusals apart. -/
def code : Refusal → String
  | notFound _ => "M_NOT_FOUND"
  | notJson _ => "M_NOT_JSON"
  | badJson _ => "M_BAD_JSON"
  | forbidden _ => "M_FORBIDDEN"
  | unsupportedVersion _ => "M_UNSUPPORTED_ROOM_VERSION"
  | incompatibleVersion _ => "M_INCOMPATIBLE_ROOM_VERSION"
  | unrecognised _ => "M_UNRECOGNIZED"
  | overflow | internal => "M_UNKNOWN"

/-- The status of the answer. -/
def status : Refusal → Nat
  | notFound _ | unrecognised _ => 404
  | forbidden _ => 403
  | overflow | internal => 500
  | notJson _ | badJson _ | unsupportedVersion _ | incompatibleVersion _ => 400

def message : Refusal → String
  | notFound what => what.message
  | notJson text => text
  | badJson cause => cause.message
  | forbidden cause => cause.message
  | unsupportedVersion text => text
  | incompatibleVersion id => "room version " ++ id ++ " not supported by the joining server"
  | unrecognised text => text
  | overflow | internal => "internal server error"

/-- The body of the answer. -/
def body (r : Refusal) : Json :=
  let common := Table.ofList [("errcode", Json.str r.code), ("error", Json.str r.message)]
  match r with
  | incompatibleVersion id => .obj (Table.insert "room_version" (.str id) common)
  | _ => .obj common

/-- A request whose body is no JSON. -/
def bodyNotJson : Refusal := notJson "request body is not json"

/-- The refusal of what a request asks of an event or a room. -/
def ofEvent : EventError → Refusal
  | .unknownVersion id => unsupportedVersion ("unsupported room version " ++ id)
  | .invalid cause => badJson (.described cause.message)
  | .signature cause => badJson (.described cause.message)
  | .missingState cause => forbidden (.described cause.message)
  | .graph cause => forbidden (.described cause.message)
  | .overflow => overflow

end Refusal

end Homeserver
