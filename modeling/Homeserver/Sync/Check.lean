/-
Checks: named conditions on the answer to one round of a sync. The stock checks look for an event of
some kind among the events of a room, or among the presence events.
-/
import Homeserver.Json.Pointer
import Homeserver.Text.Quoted

namespace Homeserver

/-! ## Reasons -/

/-- The sections under which an answer lists rooms. -/
inductive RoomSection where
  | join
  | invite
  | leave
  deriving DecidableEq, Repr

def RoomSection.name : RoomSection → String
  | join => "join"
  | invite => "invite"
  | leave => "leave"

/-- Why a check does not hold. -/
inductive Unmet where
  /-- No round has been answered. -/
  | noResponse
  | roomMissing (room : String) (place : RoomSection)
  /-- None of the events that the check reads is as it should be. -/
  | noMatch (count : Nat) (label : String)
  | described (text : String)
  deriving DecidableEq, Repr

def Unmet.message : Unmet → String
  | noResponse => "no sync response yet"
  | roomMissing room place => room ++ " not in rooms." ++ place.name
  | noMatch count label =>
    "no matching event among " ++ toString count ++ " " ++ label ++ " event(s)"
  | described text => text

/-! ## Reading answers -/

/-- What an answer says of a room in a section. -/
def roomIn (response : Json) (place : RoomSection) (room : String) : Except Unmet Json :=
  match response.path? ["rooms", place.name, room] with
  | some v => .ok v
  | none => .error (.roomMissing room place)

/-- The events under a key; none if there is no list of them. -/
def eventsUnder (v : Json) (key : String) : List Json :=
  ((v.path? [key, "events"]).bind Json.array?).getD []

/-- Some event is as it should be. -/
def anyEvent (events : List Json) (label : String) (test : Json → Bool) : Except Unmet Unit :=
  if events.any test then .ok () else .error (.noMatch events.length label)

/-- The event sets one of these memberships of a user. -/
def isMember (user : String) (memberships : List String) (event : Json) : Bool :=
  (event.get? "type").bind Json.string? = some "m.room.member" &&
  (event.get? "state_key").bind Json.string? = some user &&
  ((event.path? ["content", "membership"]).bind Json.string?).any memberships.contains

/-- The event is a presence of a user, and of this value if one is asked for. -/
def isPresence (user : String) (presence : Option String) (event : Json) : Bool :=
  (event.get? "sender").bind Json.string? = some user &&
  match presence with
  | some value => (event.path? ["content", "presence"]).bind Json.string? = some value
  | none => true

/-! ## Checks -/

/-- A named condition on the answer to one round. -/
structure SyncCheck where
  name : String
  evaluate : Json → Except Unmet Unit

namespace SyncCheck

/-- Some event of a room, among those under some keys in a section, passes a test. -/
def roomHas (name : String) (place : RoomSection) (room : String) (keys : List String)
    (label : String) (test : Json → Bool) : SyncCheck where
  name
  evaluate response := do
    let v ← roomIn response place room
    anyEvent (keys.flatMap (eventsUnder v)) label test

/-- A user has joined a room. -/
def joinedTo (user room : String) : SyncCheck :=
  roomHas ("joined_to(" ++ user ++ ", " ++ room ++ ")") .join room ["timeline", "state"] "join"
    (isMember user ["join"])

/-- A user is invited to a room. -/
def invitedTo (user room : String) : SyncCheck :=
  roomHas ("invited_to(" ++ user ++ ", " ++ room ++ ")") .invite room ["invite_state"]
    "invite_state" (isMember user ["invite"])

/-- A user has left a room or is banned from it. -/
def leftFrom (user room : String) : SyncCheck :=
  roomHas ("left_from(" ++ user ++ ", " ++ room ++ ")") .leave room ["timeline", "state"] "leave"
    (isMember user ["leave", "ban"])

/-- Some event in the timeline of a joined room passes a test. -/
def timelineHas (room : String) (test : Json → Bool) : SyncCheck :=
  roomHas ("timeline_has(" ++ room ++ ")") .join room ["timeline"] "timeline" test

/-- Some event in the state of a joined room passes a test. -/
def stateHas (room : String) (test : Json → Bool) : SyncCheck :=
  roomHas ("state_has(" ++ room ++ ")") .join room ["state"] "state" test

/-- Some ephemeral event of a joined room passes a test. -/
def ephemeralHas (room : String) (test : Json → Bool) : SyncCheck :=
  roomHas ("ephemeral_has(" ++ room ++ ")") .join room ["ephemeral"] "ephemeral" test

/-- Some presence event of a user, of this presence if one is asked for, passes all tests. -/
def presenceHas (user : String) (presence : Option String) (tests : List (Json → Bool)) :
    SyncCheck where
  name := match presence with
    | some value => "presence_has(" ++ user ++ ", " ++ value ++ ")"
    | none => "presence_has(" ++ user ++ ")"
  evaluate response := anyEvent (eventsUnder response "presence") "presence"
    (fun e => isPresence user presence e && tests.all (fun test => test e))

/-- The check as it is shown to people. -/
def shown (c : SyncCheck) : String := "SyncCheck \x7b name: " ++ Text.quoted c.name ++ " \x7d"

end SyncCheck

end Homeserver
