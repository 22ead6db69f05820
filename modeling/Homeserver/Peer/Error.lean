/-
Why an operation of a peer's own fails, and the wording.
-/
import Homeserver.Event.Error
import Homeserver.Net.Url

namespace Homeserver

/-! ## Causes -/

/-- Why a request does not reach another server, or no answer comes back. -/
inductive HttpFault where
  | badBase (base : String) (cause : UrlError)
  /-- The base URL has no hierarchical path. -/
  | opaqueBase (base : String)
  /-- The request cannot be sent. -/
  | unsendable
  /-- The connection was lost, or never made. -/
  | noAnswer
  | described (text : String)
  deriving DecidableEq, Repr

/-- What is wrong with the body of a successful answer. -/
inductive InvalidAnswer where
  | notJson
  | missing (key : String)
  | described (text : String)
  deriving DecidableEq, Repr

/-- Why an operation of a peer fails. -/
inductive PeerError where
  | io (text : String)
  | event (cause : EventError)
  | http (cause : HttpFault)
  /-- Another server reports a failure. -/
  | remote (url : String) (status : Nat) (body : String)
  | invalidAnswer (source : String) (cause : InvalidAnswer)
  | unknownDestination (name : String)
  | tls (text : String)
  | alreadyListening
  | unknownRoom (id : String)
  | unexpectedRequests (requests : List String)
  deriving DecidableEq, Repr

/-! ## Wording -/

namespace HttpFault

def message : HttpFault → String
  | badBase base cause => "invalid base url " ++ base ++ ": " ++ cause.message
  | opaqueBase base => base ++ " cannot be a base url"
  | unsendable => "the request cannot be sent"
  | noAnswer => "no answer"
  | described text => text

end HttpFault

namespace InvalidAnswer

def message : InvalidAnswer → String
  | notJson => "error decoding response body"
  | missing key => "missing " ++ key
  | described text => text

end InvalidAnswer

namespace PeerError

def message : PeerError → String
  | io text => "io error: " ++ text
  | event cause => cause.message
  | http cause => "http error: " ++ cause.message
  | remote url status body =>
    "request to " ++ url ++ " returned " ++ toString status ++ ": " ++ body
  | invalidAnswer source cause => "invalid response from " ++ source ++ ": " ++ cause.message
  | unknownDestination name => "no base url configured for destination " ++ name
  | tls text => "tls setup failed: " ++ text
  | alreadyListening => "peer is already listening"
  | unknownRoom id => "unknown room " ++ id
  | unexpectedRequests requests =>
    "federation peer received " ++ toString requests.length ++ " unexpected request(s): " ++
      ", ".intercalate requests

end PeerError

end Homeserver
