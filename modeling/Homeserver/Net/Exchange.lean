/-
Requests between servers and what comes back for them.
-/
import Homeserver.Json.Basic

namespace Homeserver

/-- A request as the server receives it. -/
structure Request where
  method : String
  /-- The path with the query. -/
  target : String
  authorization : String
  body : Option Json

/-- What comes back for a request. -/
inductive Reply where
  | answer (status : Nat) (body : String)
  /-- The connection ends without an answer. -/
  | dropped
  /-- The body of an answer ends too early. -/
  | cut (status : Nat)
  deriving DecidableEq, Repr

/-- Whether an answer of this status to a request of this method goes without a body. -/
def goesWithoutBody (method : String) (status : Nat) : Bool :=
  method = "HEAD" || status = 204 || status = 304

namespace Reply

/-- What of a reply to a request of this method reaches the client. -/
def received (method : String) : Reply → Reply
  | answer status body => answer status (if goesWithoutBody method status then "" else body)
  | cut status => if goesWithoutBody method status then answer status "" else cut status
  | dropped => dropped

/-- The replies that come before the first that never comes. -/
def inTime : List (Option Reply) → List Reply
  | some r :: rest => r :: inTime rest
  | _ => []

/-- The replies as a client sees them that gives up single requests: to it one that never comes is
a lost connection. -/
def patient (replies : List (Option Reply)) : List Reply := replies.map (·.getD dropped)

end Reply

/-- Whether a status reports success. -/
def isSuccess (status : Nat) : Bool := 200 ≤ status && status < 300

/-- The text of a body, without a mark of the byte order. -/
def bodyText (body : String) : String :=
  match body.toList with
  | c :: rest => if c.toNat = 0xFEFF then String.ofList rest else body
  | [] => body

/-- Whether the value of a header can be sent: it has no control but the tab. -/
def isHeaderValue (s : String) : Bool :=
  s.toList.all (fun c => c = '\t' || (32 ≤ c.toNat && c.toNat ≠ 127))

/-- The value of a header as it is received: blanks at its ends are no part of it. -/
def headerValue (s : String) : String :=
  let blank := fun (c : Char) => c = ' ' || c = '\t'
  String.ofList ((s.toList.dropWhile blank).reverse.dropWhile blank).reverse

end Homeserver
