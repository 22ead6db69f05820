/-
Room versions and the rules in which they differ.
-/
namespace Homeserver

/-- The supported room versions, in the order in which they are offered. -/
inductive RoomVersion where
  | v3
  | v4
  | v5
  | v6
  | v7
  | v8
  | v9
  | v10
  | v11
  | msc3787
  deriving DecidableEq, Repr, Inhabited

namespace RoomVersion

def all : List RoomVersion := [v3, v4, v5, v6, v7, v8, v9, v10, v11, msc3787]

/-- The version of rooms of which nothing is known. -/
def default : RoomVersion := v10

/-- The identifier by which servers name a version. -/
def id : RoomVersion → String
  | v3 => "3"
  | v4 => "4"
  | v5 => "5"
  | v6 => "6"
  | v7 => "7"
  | v8 => "8"
  | v9 => "9"
  | v10 => "10"
  | v11 => "11"
  | msc3787 => "org.matrix.msc3787"

/-- The version with this identifier. -/
def ofId? (id : String) : Option RoomVersion := all.find? (fun v => v.id = id)

/-! ## Rules -/

/-- Event ids are written in the URL safe alphabet. -/
def urlSafeIds : RoomVersion → Bool
  | v3 => false
  | _ => true

/-- Events may hold no number but integers of at most 53 bits. -/
def strictJson : RoomVersion → Bool
  | v3 | v4 | v5 => false
  | _ => true

/-- Users may knock. -/
def knocking : RoomVersion → Bool
  | v3 | v4 | v5 | v6 => false
  | _ => true

/-- Joins may be restricted to members of other rooms. -/
def restrictedJoins : RoomVersion → Bool
  | v3 | v4 | v5 | v6 | v7 => false
  | _ => true

/-- Restricted rooms may let other users knock. -/
def knockRestricted : RoomVersion → Bool
  | v10 | v11 | msc3787 => true
  | _ => false

/-- Redaction keeps the aliases of `m.room.aliases`. -/
def keepsAliases : RoomVersion → Bool
  | v3 | v4 | v5 => true
  | _ => false

/-- Redaction keeps the user who authorised a restricted join. -/
def keepsAuthorisingUser : RoomVersion → Bool
  | v9 | v10 | v11 | msc3787 => true
  | _ => false

/-- The redaction rules of version 11 hold, under which events name no origin. -/
def updatedRedaction : RoomVersion → Bool
  | v11 => true
  | _ => false

/-- The content of a create event names the room's creator. -/
def namesCreator (v : RoomVersion) : Bool := !v.updatedRedaction

/-- Whether a room may have this join rule. -/
def supportsJoinRule (v : RoomVersion) (rule : String) : Bool :=
  if rule = "public" ∨ rule = "invite" ∨ rule = "private" then true
  else if rule = "knock" then v.knocking
  else if rule = "restricted" then v.restrictedJoins
  else if rule = "knock_restricted" then v.knockRestricted
  else false

end RoomVersion

end Homeserver
