/-
Transactions: another server sends events and ephemeral messages. Each event is taken on its own;
one that is refused changes nothing and hinders no other. Only one whose depth is out of all bounds
breaks the transaction off, with what was taken before it left as it is.
-/
import Homeserver.Peer.Basic

namespace Homeserver

/-- What came of the events of a transaction, by their ids; `ε` says why one is refused. -/
abbrev TransactionOutcome (ε : Type) := Table String (Except ε Unit)

namespace Peer

/-! ## Single events -/

/-- The room of an event as the event has it. -/
def roomIdOf (pdu : Json) : Option String := (pdu.get? "room_id").bind Json.string?

/-- The room of an event, if the peer holds it. -/
def roomOf (p : Peer) (pdu : Json) : Option Room := (roomIdOf pdu).bind p.room?

/-- The version under which an event is read: that of the held room, else that of an invite. -/
def versionFor (p : Peer) (pdu : Json) : RoomVersion :=
  match p.roomOf pdu with
  | some r => r.version
  | none => ((roomIdOf pdu).bind p.invitedVersion?).getD .default

/-- Appends an event to a held room unless the room has recorded it. -/
def appendNew (p : Peer) (r : Room) (e : Event) : Except EventError Peer :=
  if r.contains e.id then .ok p else do return p.holdRoom (← r.addEvent e)

/-- Remembers that an event was accepted. -/
def seePdu (p : Peer) (e : Event) : Peer := { p with pdus := p.pdus ++ [e] }

/-- Accepts an event; one of a room that the peer does not hold is checked and not recorded. -/
def acceptPdu (p : Peer) (pdu : Json) : Except EventError Peer := do
  let e ← Event.ofPdu (p.versionFor pdu) pdu
  match p.roomOf pdu with
  | some r => return (← p.appendNew r e).seePdu e
  | none => return p.seePdu e

/-! ## Transactions -/

/-- Takes one entry of a transaction. If that breaks off, the peer is what is left. -/
def takePdu (s : TransactionOutcome EventError × Peer) (pdu : Json) :
    Except Peer (TransactionOutcome EventError × Peer) :=
  let (outcome, p) := s
  if !pdu.isObject then .ok (outcome, { p with malformed := p.malformed ++ [pdu] })
  else
    let id := eventId (p.versionFor pdu) pdu
    match p.acceptPdu pdu with
    | .ok next => .ok (Table.insert id (.ok ()) outcome, next)
    | .error .overflow => .error p
    | .error e => .ok (Table.insert id (.error e) outcome, p)

/-- Takes the events and messages of a transaction, in order. There is no outcome if an event breaks
it off, and then nothing behind the event is taken. -/
def takeTransaction (p : Peer) (pdus edus : List Json) :
    Option (TransactionOutcome EventError) × Peer :=
  match pdus.foldlM takePdu ([], p) with
  | .ok (outcome, next) => (some outcome, { next with edus := next.edus ++ edus })
  | .error left => (none, left)

/-- A list of a transaction, which may be left out. -/
def readList (body : Json) (key : String) : Except Refusal (List Json) :=
  match body.get? key with
  | none | some .null => .ok []
  | some (.arr items) => .ok items
  | some _ => .error (.badJson (.notArray key))

/-- Takes the transaction of a request. -/
def receiveTransaction (p : Peer) (body : Option Json) :
    Except Refusal (Option (TransactionOutcome EventError) × Peer) := do
  let some body := body | throw .bodyNotJson
  let pdus ← readList body "pdus"
  let edus ← readList body "edus"
  return p.takeTransaction pdus edus

end Peer

/-- The outcome as the other server sees it: an error for each refused event. -/
def TransactionOutcome.json {ε : Type} (o : TransactionOutcome ε) (message : ε → String) : Json :=
  .obj (o.map (fun (id, result) => (id, match result with
    | .ok () => .obj []
    | .error e => Json.object [("error", .str (message e))])))

end Homeserver
