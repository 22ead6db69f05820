/-
Templates: what a caller asks of an event, before a room gives it a place in its graph.
-/
import Homeserver.Event.Error
import Homeserver.Json.Basic

namespace Homeserver

/-- What an event is to be. A raw template is not checked, so that malformed events can be made on
purpose; an override replaces a member of the event, or with null drops it. -/
structure EventTemplate where
  type : String
  sender : String
  stateKey : Option String
  content : Json
  timestamp : Option Int
  raw : Bool
  overrides : Members
  deriving Repr

namespace EventTemplate

/-! ## Making templates -/

def message (type sender : String) (content : Json) : EventTemplate :=
  ⟨type, sender, none, content, none, false, []⟩

def state (type sender stateKey : String) (content : Json) : EventTemplate :=
  ⟨type, sender, some stateKey, content, none, false, []⟩

/-- The membership of a user, set by a sender. -/
def member (sender target membership : String) : EventTemplate :=
  state "m.room.member" sender target (.obj [("membership", .str membership)])

def atTime (t : EventTemplate) (timestamp : Int) : EventTemplate :=
  { t with timestamp := some timestamp }

def unchecked (t : EventTemplate) : EventTemplate := { t with raw := true }

/-- Replaces a member of the event; the template is raw from then on. -/
def override (t : EventTemplate) (key : String) (value : Json) : EventTemplate :=
  { t with raw := true, overrides := Table.insert key value t.overrides }

/-! ## Checks -/

def checkMember (t : EventTemplate) : Except EventError Unit :=
  if t.type = "m.room.member" then
    if t.stateKey.isNone then .error (.invalid .memberWithoutTarget)
    else if ((t.content.get? "membership").any Json.isString) then .ok ()
    else .error (.invalid .memberWithoutMembership)
  else .ok ()

def checkJoinRule (t : EventTemplate) (version : RoomVersion) : Except EventError Unit :=
  if t.type = "m.room.join_rules" then
    let rule := ((t.content.get? "join_rule").bind Json.string?).getD ""
    if version.supportsJoinRule rule then .ok () else .error (.invalid (.joinRule rule version))
  else .ok ()

def checkStrict (t : EventTemplate) (version : RoomVersion) : Except EventError Unit :=
  if version.strictJson then
    t.content.checkStrict.mapError (fun e => .invalid (.ofNotStrict e))
  else .ok ()

/-- Whether a room of this version builds an event from the template. -/
def check (t : EventTemplate) (version : RoomVersion) : Except EventError Unit :=
  if t.raw then .ok ()
  else if !t.content.isObject then .error (.invalid (.templateContent t.type))
  else do
    t.checkStrict version
    t.checkMember
    t.checkJoinRule version

end EventTemplate

end Homeserver
