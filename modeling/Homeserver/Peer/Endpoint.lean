/-
What a peer can serve, and under which methods and paths. Routes are registered one by one or in
bundles; of two routes with one method and one path the later one counts.
-/
import Homeserver.Net.PathPattern
import Homeserver.Peer.Membership

namespace Homeserver

/-- A service of a peer. -/
inductive Endpoint where
  | keys
  | directory
  | propose (h : Handshake)
  | accept (h : Handshake)
  | invite
  | transaction
  | event
  | missingEvents
  /-- Answers each request with one value. -/
  | fixed (body : Json)

/-- A service under a method and a path. -/
structure Route where
  method : String
  path : PathPattern
  endpoint : Endpoint

namespace Route

/-- A path of the exchange between servers. -/
def between (version service : String) (parameters : List String) : PathPattern :=
  ⟨["_matrix", "federation", version, service], parameters⟩

def keys : Route := ⟨"GET", ⟨["_matrix", "key", "v2", "server"], []⟩, .keys⟩

def directory : Route :=
  ⟨"GET", ⟨["_matrix", "federation", "v1", "query", "directory"], []⟩, .directory⟩

def makeJoin : Route := ⟨"GET", between "v1" "make_join" ["room_id", "user_id"], .propose .join⟩

def sendJoin : Route := ⟨"PUT", between "v2" "send_join" ["room_id", "event_id"], .accept .join⟩

def makeKnock : Route := ⟨"GET", between "v1" "make_knock" ["room_id", "user_id"], .propose .knock⟩

def sendKnock : Route := ⟨"PUT", between "v1" "send_knock" ["room_id", "event_id"], .accept .knock⟩

def invite : Route := ⟨"PUT", between "v2" "invite" ["room_id", "event_id"], .invite⟩

def transaction : Route := ⟨"PUT", between "v1" "send" ["txn_id"], .transaction⟩

def event : Route := ⟨"GET", between "v1" "event" ["event_id"], .event⟩

def missingEvents : Route :=
  ⟨"POST", between "v1" "get_missing_events" ["room_id"], .missingEvents⟩

/-- A route that answers with one value. -/
def fixed (method path : String) (body : Json) : Route :=
  ⟨method, PathPattern.ofPath path, .fixed body⟩

/-- Whether the route serves requests of a method; `HEAD` asks for what `GET` gives. -/
def serves (r : Route) (method : String) : Bool :=
  r.method = method || (r.method = "GET" && method = "HEAD")

end Route

/-! ## Bundles -/

/-- Services that belong together. -/
inductive Bundle where
  | keys
  | directory
  | join
  | knock
  | invite
  | transaction
  | event
  | missingEvents
  deriving DecidableEq, Repr

namespace Bundle

def all : List Bundle :=
  [keys, directory, join, knock, invite, transaction, event, missingEvents]

def routes : Bundle → List Route
  | keys => [.keys]
  | directory => [.directory]
  | join => [.makeJoin, .sendJoin]
  | knock => [.makeKnock, .sendKnock]
  | invite => [.invite]
  | transaction => [.transaction]
  | event => [.event]
  | missingEvents => [.missingEvents]

end Bundle

/-! ## Registered routes -/

/-- Registered routes, of which no two have one method and one path. -/
abbrev Routes := List Route

namespace Routes

/-- Registers a route in place of one with its method and path. -/
def register (rs : Routes) (r : Route) : Routes :=
  rs.filter (fun s => !(s.method = r.method && s.path = r.path)) ++ [r]

def registerBundle (rs : Routes) (b : Bundle) : Routes := b.routes.foldl register rs

/-- The routes of these bundles. -/
def ofBundles (bs : List Bundle) : Routes := bs.foldl registerBundle []

/-- The route that serves a method and a path, with the encoded parameters of the path. -/
def find? (rs : Routes) (method : String) (path : List Char) :
    Option (Route × List (List Char)) :=
  rs.findSome? (fun r => if r.serves method then (r.path.match? path).map (r, ·) else none)

end Routes

end Homeserver
