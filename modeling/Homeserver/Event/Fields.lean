/-
The fields of an event on which rooms decide, and how they are read from JSON.
-/
import Homeserver.Event.Error
import Homeserver.Json.Basic

namespace Homeserver

/-- What a room knows of an event. -/
structure EventFields where
  roomId : String
  sender : String
  type : String
  stateKey : Option String
  content : Json
  prevEvents : List String
  authEvents : List String
  depth : Int
  timestamp : Int
  deriving Repr

namespace EventFields

/-! ## Reading single fields -/

def readString (members : Members) (key : String) : Except EventError String :=
  match (Table.find? key members).bind Json.string? with
  | some s => .ok s
  | none => .error (.invalid (.missingField key))

def readInteger (members : Members) (key : String) : Except EventError Int :=
  match Table.find? key members with
  | none => .error (.invalid (.missingField key))
  | some v =>
    match v.int? with
    | some n => .ok n
    | none => .error (.invalid (.notInteger key))

def readIds (members : Members) (key : String) : Except EventError (List String) :=
  match (Table.find? key members).bind Json.array? with
  | none => .error (.invalid (.missingField key))
  | some items =>
    match items.mapM Json.string? with
    | some ids => .ok ids
    | none => .error (.invalid (.notEventIds key))

def readContent (members : Members) : Except EventError Json :=
  match Table.find? "content" members with
  | none => .error (.invalid (.missingField "content"))
  | some (.obj content) => .ok (.obj content)
  | some _ => .error (.invalid .contentNotObject)

def readStateKey (members : Members) : Except EventError (Option String) :=
  match Table.find? "state_key" members with
  | none => .ok none
  | some (.str key) => .ok (some key)
  | some _ => .error (.invalid .stateKeyNotString)

/-! ## Reading an event -/

/-- Reads the fields of an event; of several faults the first in this order is reported. -/
def read (members : Members) : Except EventError EventFields := do
  let content ← readContent members
  let stateKey ← readStateKey members
  let roomId ← readString members "room_id"
  let sender ← readString members "sender"
  let type ← readString members "type"
  let prevEvents ← readIds members "prev_events"
  let authEvents ← readIds members "auth_events"
  let depth ← readInteger members "depth"
  let timestamp ← readInteger members "origin_server_ts"
  return { roomId, sender, type, stateKey, content, prevEvents, authEvents, depth, timestamp }

end EventFields

end Homeserver
