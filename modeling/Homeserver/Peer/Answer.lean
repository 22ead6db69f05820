/-
Requests as a peer receives them, and its answers.
-/
import Homeserver.Json.Canonical
import Homeserver.Json.Reader
import Homeserver.Net.Exchange
import Homeserver.Net.Target
import Homeserver.Peer.Lookup

namespace Homeserver

/-! ## Requests -/

/-- A request that a peer receives. -/
structure Inbound where
  /-- When it comes, in milliseconds. -/
  time : Int
  method : String
  target : Target
  /-- The value of the body; nothing if the body is no JSON. -/
  body : Option Json

namespace Inbound

/-- A request for the target of this text with that text as its body. -/
def ofText (time : Int) (method target text : String) : Inbound :=
  ⟨time, method, Target.ofText target, Json.read? text⟩

/-- The path by which the request is routed. -/
def path (q : Inbound) : List Char := q.target.path

/-- The query, empty if there is none. -/
def query (q : Inbound) : List Char := q.target.query.getD []

/-- The request as it is reported, with the whole of its target. -/
def shown (q : Inbound) : String := q.method ++ " " ++ q.target.text

end Inbound

/-! ## Answers -/

/-- Why a request is not understood. -/
inductive Misread where
  /-- A parameter of the path stands for no text. -/
  | parameter (name : String)
  | query (cause : MisreadQuery)
  deriving DecidableEq, Repr

/-- What a peer answers. -/
inductive PeerAnswer where
  | served (body : Json)
  | refused (why : Refusal)
  | misread (why : Misread)
  /-- Handling the request breaks off, and the connection ends without an answer. -/
  | lost

namespace Misread

def message : Misread → String
  | parameter name => "Invalid URL: Invalid UTF-8 in `" ++ name ++ "`"
  | query (.missing name) => "Failed to deserialize query string: missing field `" ++ name ++ "`"
  | query (.duplicate name) =>
    "Failed to deserialize query string: duplicate field `" ++ name ++ "`"

end Misread

namespace PeerAnswer

/-- The answer to a request that cannot be served. -/
def ofRefusal : Refusal → PeerAnswer
  | .overflow => lost
  | why => refused why

/-- The status of the answer, and zero if there is none. -/
def status : PeerAnswer → Nat
  | served _ => 200
  | refused why => why.status
  | misread _ => 400
  | lost => 0

/-- The body of the answer: JSON, but plain text for a request that is not understood. -/
def text : PeerAnswer → String
  | served body => body.canonical
  | refused why => why.body.canonical
  | misread why => why.message
  | lost => ""

/-- The answer to a request of a method as it reaches the other server. -/
def reply (a : PeerAnswer) (method : String) : Reply :=
  match a with
  | lost => .dropped
  | a => (Reply.answer a.status a.text).received method

end PeerAnswer

end Homeserver
