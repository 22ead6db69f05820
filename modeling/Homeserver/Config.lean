/-
The settings of a test run: their defaults, how they are read from a TOML text and overridden by
environment variables, and which are refused.
-/
import Homeserver.Json.Basic
import Homeserver.Net.SocketAddress
import Homeserver.Table
import Homeserver.Toml.Reader

namespace Homeserver

/-! ## Settings -/

/-- How the peer listens and names itself. -/
structure PeerConfig where
  bindAddress : String := "127.0.0.1:0"
  /-- The host under which other servers reach the peer. -/
  host : String := "localhost"
  /-- A server name in place of the host and the port that is listened on. -/
  serverName : Option String := none
  keyId : String := "ed25519:1"
  tls : Bool := false
  /-- Whether requests that nothing answers count as errors. -/
  strict : Bool := true
  deriving DecidableEq, Repr

/-- How clients poll a server; all times are in milliseconds. -/
structure SyncConfig where
  /-- For how long a check of several rounds may take. -/
  timeout : Nat := 5000
  /-- For how long the server may hold a round back. -/
  longPoll : Nat := 1000
  /-- How often a round is attempted. -/
  retries : Nat := 3
  /-- The pause after a first failed attempt. -/
  retryDelay : Nat := 100
  deriving DecidableEq, Repr

structure WaitConfig where
  timeout : Nat := 5000
  deriving DecidableEq, Repr

structure LogConfig where
  filter : Option String := none
  json : Bool := false
  deriving DecidableEq, Repr

/-- The settings of a test run, with the base URLs of the servers under test by their names. -/
structure Config where
  peer : PeerConfig := {}
  sync : SyncConfig := {}
  wait : WaitConfig := {}
  log : LogConfig := {}
  destinations : Table String String := []
  deriving DecidableEq, Repr

/-! ## Errors -/

/-- A setting with which no run can start. -/
inductive InvalidSetting where
  | bindAddress (text : String)
  | keyId (text : String)
  | noRetries
  | destination (name url : String)
  deriving DecidableEq, Repr

namespace InvalidSetting

def message : InvalidSetting → String
  | bindAddress text => "peer.bind_address '" ++ text ++ "': invalid socket address syntax"
  | keyId text => "peer.key_id '" ++ text ++ "' must use the ed25519 algorithm"
  | noRetries => "sync.transport_retries must be at least 1"
  | destination name url => "destination '" ++ name ++ "' has non-http url '" ++ url ++ "'"

end InvalidSetting

/-- Why no settings are had. -/
inductive ConfigError where
  | unreadable
  | malformed
  | invalid (cause : InvalidSetting)
  deriving DecidableEq, Repr

namespace ConfigError

def message : ConfigError → String
  | unreadable => "failed to read config file"
  | malformed => "failed to parse config"
  | invalid cause => "invalid config: " ++ cause.message

end ConfigError

namespace Config

/-! ## Reading -/

/-- What the settings of one group are read from: a table, or an array in their order. A date or a
time counts as a table without settings. -/
inductive Source where
  | named (entries : Toml.Entries)
  | listed (items : List Toml)

namespace Source

def of? : Toml → Option Source
  | .table _ entries => some (.named entries)
  | .arr items => some (.listed items)
  | .tables items => some (.listed items)
  | .datetime => some (.named [])
  | _ => none

def get? (s : Source) (index : Nat) (name : String) : Option Toml :=
  match s with
  | named entries => Toml.find? name entries
  | listed items => items[index]?

/-- A setting with a default. -/
def setting {α : Type} (s : Source) (index : Nat) (name : String) (default : α)
    (read : Toml → Option α) : Option α :=
  match s.get? index name with
  | none => some default
  | some v => read v

/-- A setting that may be left out of a table, but not of an array. -/
def optional {α : Type} (s : Source) (index : Nat) (name : String) (read : Toml → Option α) :
    Option (Option α) :=
  match s, s.get? index name with
  | named _, none => some none
  | listed _, none => none
  | _, some v => (read v).map some

end Source

def readString : Toml → Option String
  | .str s => some s
  | _ => none

def readBool : Toml → Option Bool
  | .bool b => some b
  | _ => none

/-- A natural number below a bound. -/
def readNatural (bound : Nat) : Toml → Option Nat
  | .int n => if 0 ≤ n ∧ n.toNat < bound then some n.toNat else none
  | _ => none

def readPeer (v : Toml) : Option PeerConfig := do
  let s ← Source.of? v
  let d : PeerConfig := {}
  return {
    bindAddress := ← s.setting 0 "bind_address" d.bindAddress readString
    host := ← s.setting 1 "host" d.host readString
    serverName := ← s.optional 2 "server_name" readString
    keyId := ← s.setting 3 "key_id" d.keyId readString
    tls := ← s.setting 4 "tls" d.tls readBool
    strict := ← s.setting 5 "unexpected_requests_are_errors" d.strict readBool }

def readSync (v : Toml) : Option SyncConfig := do
  let s ← Source.of? v
  let d : SyncConfig := {}
  return {
    timeout := ← s.setting 0 "timeout_ms" d.timeout (readNatural UInt64.size)
    longPoll := ← s.setting 1 "long_poll_ms" d.longPoll (readNatural UInt64.size)
    retries := ← s.setting 2 "transport_retries" d.retries (readNatural UInt32.size)
    retryDelay := ← s.setting 3 "retry_base_delay_ms" d.retryDelay (readNatural UInt64.size) }

def readWait (v : Toml) : Option WaitConfig := do
  let s ← Source.of? v
  let d : WaitConfig := {}
  return { timeout := ← s.setting 0 "timeout_ms" d.timeout (readNatural UInt64.size) }

def readLog (v : Toml) : Option LogConfig := do
  let s ← Source.of? v
  let d : LogConfig := {}
  return {
    filter := ← s.optional 0 "filter" readString
    json := ← s.setting 1 "json" d.json readBool }

def readDestinations : Toml → Option (Table String String)
  | .table _ entries => do
    return Table.ofList (← entries.mapM (fun (name, v) => (readString v).map (name, ·)))
  | _ => none

/-- The settings of a document; what it does not say keeps its default, and what is no setting is
ignored. -/
def ofEntries (entries : Toml.Entries) : Option Config := do
  let s := Source.named entries
  return {
    peer := ← s.setting 0 "peer" {} readPeer
    sync := ← s.setting 1 "sync" {} readSync
    wait := ← s.setting 2 "wait" {} readWait
    log := ← s.setting 3 "log" {} readLog
    destinations := ← s.setting 4 "destinations" [] readDestinations }

/-! ## Checks -/

def isHttpUrl (url : String) : Bool :=
  "http://".toList.isPrefixOf url.toList || "https://".toList.isPrefixOf url.toList

/-- Refuses settings with which no run can start; of several the first in this order. -/
def check (c : Config) : Except InvalidSetting Unit :=
  if !SocketAddress.isValid c.peer.bindAddress then .error (.bindAddress c.peer.bindAddress)
  else if !"ed25519:".toList.isPrefixOf c.peer.keyId.toList then .error (.keyId c.peer.keyId)
  else if c.sync.retries = 0 then .error .noRetries
  else
    match List.find? (fun d => !isHttpUrl d.2) c.destinations with
    | some (name, url) => .error (.destination name url)
    | none => .ok ()

/-- The settings that a TOML text gives. -/
def ofToml (text : String) : Except ConfigError Config :=
  match (Toml.read? text).bind ofEntries with
  | none => .error .malformed
  | some c => do
    (c.check).mapError .invalid
    return c

/-! ## Environment -/

/-- The truth value that a variable spells out; any other text changes nothing. -/
def overrideBool (text : Option String) (value : Bool) : Bool :=
  match text with
  | some "true" => true
  | some "false" => false
  | _ => value

/-- The number that a variable spells out; any other text changes nothing. -/
def overrideNatural (bound : Nat) (text : Option String) (value : Nat) : Nat :=
  ((text.bind (Text.natural? bound))).getD value

/-- A name and a URL on both sides of an equals sign. -/
def destination? (entry : List Char) : Option (String × String) :=
  match Text.splitFirst '=' (Text.trimChars entry) with
  | some (name, url) =>
    let (name, url) := (Text.trimChars name, Text.trimChars url)
    if name.isEmpty || url.isEmpty then none else some (String.ofList name, String.ofList url)
  | none => none

/-- Adds the destinations of a list separated by commas; malformed ones are left out. -/
def overrideDestinations (text : Option String) (t : Table String String) : Table String String :=
  match text with
  | none => t
  | some text => ((Text.splitAll ',' text.toList).filterMap destination?).foldl
      (fun t d => Table.insert d.1 d.2 t) t

/-- The environment variables that override settings. -/
def settingNames : List String := [
  "MESHCHECK_PEER_BIND_ADDRESS", "MESHCHECK_PEER_HOST", "MESHCHECK_PEER_SERVER_NAME",
  "MESHCHECK_PEER_TLS", "MESHCHECK_UNEXPECTED_REQUESTS_ARE_ERRORS", "MESHCHECK_SYNC_TIMEOUT_MS",
  "MESHCHECK_SYNC_LONG_POLL_MS", "MESHCHECK_SYNC_TRANSPORT_RETRIES", "MESHCHECK_WAIT_TIMEOUT_MS",
  "MESHCHECK_LOG_JSON", "MESHCHECK_DESTINATIONS"]

/-- Overrides settings by environment variables. -/
def override (c : Config) (env : String → Option String) : Config :=
  let serverName := match env "MESHCHECK_PEER_SERVER_NAME" with
    | some name => if (Text.trim name).isEmpty then none else some name
    | none => c.peer.serverName
  let retries := match (env "MESHCHECK_SYNC_TRANSPORT_RETRIES").bind
      (Text.natural? UInt32.size) with
    | some n => max 1 (min n 10)
    | none => c.sync.retries
  { peer := {
      bindAddress := (env "MESHCHECK_PEER_BIND_ADDRESS").getD c.peer.bindAddress
      host := (env "MESHCHECK_PEER_HOST").getD c.peer.host
      serverName
      keyId := c.peer.keyId
      tls := overrideBool (env "MESHCHECK_PEER_TLS") c.peer.tls
      strict := overrideBool (env "MESHCHECK_UNEXPECTED_REQUESTS_ARE_ERRORS") c.peer.strict }
    sync := {
      timeout := overrideNatural UInt64.size (env "MESHCHECK_SYNC_TIMEOUT_MS") c.sync.timeout
      longPoll := overrideNatural UInt64.size (env "MESHCHECK_SYNC_LONG_POLL_MS") c.sync.longPoll
      retries
      retryDelay := c.sync.retryDelay }
    wait := {
      timeout := overrideNatural UInt64.size (env "MESHCHECK_WAIT_TIMEOUT_MS") c.wait.timeout }
    log := {
      filter := c.log.filter
      json := overrideBool (env "MESHCHECK_LOG_JSON") c.log.json }
    destinations := overrideDestinations (env "MESHCHECK_DESTINATIONS") c.destinations }

/-! ## Loading -/

/-- What is found at a path. -/
inductive File where
  | missing
  | unreadable
  | text (contents : String)

/-- Loads settings from a file, if there is one, and the environment. -/
def load (file : File) (env : String → Option String) : Except ConfigError Config := do
  let c ← match file with
    | .missing => pure {}
    | .unreadable => throw .unreadable
    | .text contents => ofToml contents
  let c := c.override env
  (c.check).mapError .invalid
  return c

/-! ## Views -/

/-- The settings as JSON, under the names that they have in a file. -/
def json (c : Config) : Json :=
  Json.object [
    ("peer", Json.object [
      ("bind_address", .str c.peer.bindAddress),
      ("host", .str c.peer.host),
      ("server_name", Json.ofString? c.peer.serverName),
      ("key_id", .str c.peer.keyId),
      ("tls", .bool c.peer.tls),
      ("unexpected_requests_are_errors", .bool c.peer.strict)]),
    ("sync", Json.object [
      ("timeout_ms", .int c.sync.timeout),
      ("long_poll_ms", .int c.sync.longPoll),
      ("transport_retries", .int c.sync.retries),
      ("retry_base_delay_ms", .int c.sync.retryDelay)]),
    ("wait", Json.object [("timeout_ms", .int c.wait.timeout)]),
    ("log", Json.object [
      ("filter", Json.ofString? c.log.filter),
      ("json", .bool c.log.json)]),
    ("destinations", .obj (c.destinations.map (fun (name, url) => (name, .str url))))]

/-- The base URL of a server under test. -/
def destinationUrl? (c : Config) (serverName : String) : Option String :=
  Table.find? serverName c.destinations

end Config

end Homeserver
