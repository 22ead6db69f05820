/-
Servers: a peer with its routes and the servers that it knows, made from settings. A server listens
at most once; when it ends, a strict peer reports the requests that nothing answered.
-/
import Homeserver.Config
import Homeserver.Peer.Join
import Homeserver.Peer.Service

namespace Homeserver

/-- What a server is made of beside its settings. -/
structure ServerPlan where
  routes : Routes := []
  /-- Overrides the settings on whether unexpected requests count as errors. -/
  strict : Option Bool := none

/-- A peer that can be reached. -/
structure Server where
  peer : Peer
  routes : Routes
  destinations : Destinations
  tls : Bool
  /-- The host for which a certificate is made. -/
  host : String
  listened : Bool := false

namespace Server

/-- The name of a server that listens on a port, unless the settings name it. -/
def nameFor (c : PeerConfig) (port : Nat) : String :=
  c.serverName.getD (c.host ++ ":" ++ toString port)

/-- A server that is bound to a port. -/
def ofConfig (c : Config) (plan : ServerPlan) (key : Ed25519.SecretKey) (port : Nat) : Server where
  peer := {
    identity := ⟨nameFor c.peer port, c.peer.keyId, key⟩
    strict := plan.strict.getD c.peer.strict }
  routes := plan.routes
  destinations := c.destinations
  tls := c.peer.tls
  host := c.peer.host

/-- Binds a server to its address, at which the host gives it a port; none if the host cannot listen
there. -/
def bind (c : Config) (plan : ServerPlan) (key : Ed25519.SecretKey) (port : Option Nat) :
    Except PeerError Server :=
  match port with
  | some port => .ok (ofConfig c plan key port)
  | none => .error (.io ("cannot listen at " ++ c.peer.bindAddress))

/-- The scheme under which the server is reached. -/
def scheme (s : Server) : String := if s.tls then "https" else "http"

/-! ## Listening -/

/-- Whether a certificate can be made for a host; it names hosts in ASCII only. -/
def isCertifiable (host : String) : Bool := host.toList.all (fun c => c.toNat < 128)

/-- Starts to listen. An attempt that fails counts as the only one. -/
def listen (s : Server) : Except PeerError Unit × Server :=
  if s.listened then (.error .alreadyListening, s)
  else if s.tls && !isCertifiable s.host then
    (.error (.tls "the host is no name for a certificate"), { s with listened := true })
  else (.ok (), { s with listened := true })

/-- Answers requests one after the other. -/
def serve (s : Server) (requests : List Inbound) : List PeerAnswer × Server :=
  let (answers, peer) := Peer.receiveAll s.routes s.peer requests
  (answers, { s with peer })

/-- The end of listening, at which a strict peer reports the requests that nothing answered. -/
def finish (s : Server) : Except PeerError Unit :=
  if s.peer.strict && !s.peer.unexpected.isEmpty then
    .error (.unexpectedRequests s.peer.unexpected)
  else .ok ()

end Server

end Homeserver
