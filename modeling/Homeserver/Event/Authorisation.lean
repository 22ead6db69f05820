/-
Which parts of a room's state an event has to cite as its authorisation.
-/
import Homeserver.Json.Pointer
import Homeserver.Room.Version

namespace Homeserver

/-- The place of an event in a room's state. -/
structure StateKey where
  type : String
  key : String
  deriving DecidableEq, Repr

/-- Places are ordered by type and then by key. -/
instance : Key StateKey :=
  ⟨fun a b => Key.before a.type b.type || (a.type == b.type && Key.before a.key b.key)⟩

namespace StateKey

def create : StateKey := ⟨"m.room.create", ""⟩
def powerLevels : StateKey := ⟨"m.room.power_levels", ""⟩
def joinRules : StateKey := ⟨"m.room.join_rules", ""⟩
def member (user : String) : StateKey := ⟨"m.room.member", user⟩
def thirdPartyInvite (token : String) : StateKey := ⟨"m.room.third_party_invite", token⟩

end StateKey

namespace Authorisation

/-- The text at some members of a content. -/
def textAt (content : Json) (path : List String) : Option String :=
  (content.walk? path).bind Json.string?

/-- What a membership needs besides what every event needs. -/
def ofMembership (version : RoomVersion) (target : Option String) (content : Json) :
    List StateKey :=
  let membership := ((content.get? "membership").bind Json.string?).getD ""
  let joinRules :=
    if membership = "join" ∨ membership = "invite" ∨ (membership = "knock" ∧ version.knocking)
    then [StateKey.joinRules] else []
  let invite :=
    if membership = "invite" then
      (textAt content ["third_party_invite", "signed", "token"]).toList.map .thirdPartyInvite
    else []
  let authorisedBy :=
    if membership = "join" ∧ version.restrictedJoins then
      (((content.get? "join_authorised_via_users_server").bind Json.string?).toList).map .member
    else []
  target.toList.map .member ++ joinRules ++ invite ++ authorisedBy

/-- The items of a list without repetitions, each at its first place. -/
def firstOfEach {α : Type} [DecidableEq α] : List α → List α
  | [] => []
  | a :: rest => a :: (firstOfEach rest).filter (· ≠ a)

/-- The places in the state that an event has to cite, each once. A create event cites nothing. -/
def needed (version : RoomVersion) (type sender : String) (stateKey : Option String)
    (content : Json) : List StateKey :=
  if type = "m.room.create" then []
  else
    let common := [StateKey.create, StateKey.powerLevels, StateKey.member sender]
    firstOfEach (common ++
      (if type = "m.room.member" then ofMembership version stateKey content else []))

end Authorisation

end Homeserver
