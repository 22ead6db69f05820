/-
Redaction: the part of an event on which its id and its signatures depend.
-/
import Homeserver.Json.Pointer
import Homeserver.Room.Version

namespace Homeserver

namespace Redaction

/-! ## What is kept -/

/-- The members kept under every version. -/
def keptKeys : List String :=
  ["event_id", "type", "room_id", "sender", "state_key", "content", "hashes", "signatures",
    "depth", "prev_events", "auth_events", "origin_server_ts"]

/-- The members kept only before the rules of version 11. -/
def formerKeys : List String := ["origin", "membership", "prev_state"]

/-- Whether a member of an event is kept. -/
def keeps (version : RoomVersion) (key : String) : Bool :=
  key ∈ keptKeys || (!version.updatedRedaction && key ∈ formerKeys)

/-- The members of the content that are kept whole, by the event's type. -/
def keptContent (version : RoomVersion) (type : String) : List String :=
  if type = "m.room.member" then
    "membership" ::
      (if version.keepsAuthorisingUser then ["join_authorised_via_users_server"] else [])
  else if type = "m.room.create" then ["creator"]
  else if type = "m.room.join_rules" then
    "join_rule" :: (if version.restrictedJoins then ["allow"] else [])
  else if type = "m.room.power_levels" then
    ["ban", "events", "events_default", "kick", "redact", "state_default", "users",
      "users_default"] ++ (if version.updatedRedaction then ["invite"] else [])
  else if type = "m.room.aliases" then (if version.keepsAliases then ["aliases"] else [])
  else if type = "m.room.history_visibility" then ["history_visibility"]
  else if type = "m.room.redaction" then (if version.updatedRedaction then ["redacts"] else [])
  else []

/-- The signed part of a third party invite, which version 11 keeps in memberships. -/
def signedInvite? (version : RoomVersion) (type : String) (content : Members) : Option Json :=
  if type = "m.room.member" ∧ version.updatedRedaction then
    (Table.find? "third_party_invite" content).bind (·.get? "signed")
  else none

/-- The content of a redacted event. Version 11 keeps all of a create event's content. -/
def content (version : RoomVersion) (type : String) (content : Members) : Members :=
  if type = "m.room.create" ∧ version.updatedRedaction then content
  else
    let kept := content.filter (fun m => m.1 ∈ keptContent version type)
    match signedInvite? version type content with
    | some signed => Table.insert "third_party_invite" (.obj [("signed", signed)]) kept
    | none => kept

end Redaction

/-- The type of an event, and the empty text if it has none. -/
def eventType (members : Members) : String :=
  ((Table.find? "type" members).bind Json.string?).getD ""

/-- The redacted members of an event, among which there is always a content. -/
def redactMembers (version : RoomVersion) (members : Members) : Members :=
  let content := ((Table.find? "content" members).bind Json.members?).getD []
  Table.insert "content" (.obj (Redaction.content version (eventType members) content))
    (members.filter (fun m => Redaction.keeps version m.1 && m.1 ≠ "content"))

/-- Redacts an event; a value that is no object stays as it is. -/
def redact (version : RoomVersion) : Json → Json
  | .obj members => .obj (redactMembers version members)
  | v => v

end Homeserver
