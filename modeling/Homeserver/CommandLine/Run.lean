/-
Runs of the command line: from the arguments to a server that listens, and from its end to the exit
code.
-/
import Homeserver.CommandLine.Arguments
import Homeserver.CommandLine.KeyFile
import Homeserver.Peer.Server

namespace Homeserver

/-- What a run finds when it starts. -/
structure Surroundings where
  file : String → Config.File
  /-- The value of an environment variable. -/
  environment : String → Option String
  /-- The key for a run without a key file. -/
  freshKey : Ed25519.SecretKey
  /-- An id that no other room has. -/
  freshId : String
  /-- The time in milliseconds, each time that it is asked for. -/
  clock : Nat → Int

/-- Why a run ends without success. -/
inductive RunError where
  | arguments (cause : ArgumentError)
  | config (cause : ConfigError)
  | keyFile (cause : KeyFileError)
  | event (cause : EventError)
  | peer (cause : PeerError)
  deriving DecidableEq, Repr

namespace RunError

/-- The exit code; to ask for help is no failure. -/
def exitCode : RunError → Nat
  | arguments .help => 0
  | arguments _ => 2
  | _ => 1

/-- The text that is reported; what is wrong with arguments is shown with the usage. -/
def message? : RunError → Option String
  | arguments _ => none
  | config cause => some cause.message
  | keyFile cause => some cause.message
  | event cause => some cause.message
  | peer cause => some cause.message

end RunError

namespace Run

/-! ## Preparing -/

/-- What a run is to do. -/
structure Prepared where
  arguments : Arguments
  config : Config
  key : Ed25519.SecretKey

/-- The key to sign with. -/
def key (s : Surroundings) (a : Arguments) : Except KeyFileError Ed25519.SecretKey :=
  match a.signingKey with
  | some path => KeyFile.load path (s.file path)
  | none => .ok s.freshKey

/-- Reads the arguments, the settings and the key. -/
def prepare (s : Surroundings) (items : List String) : Except RunError Prepared := do
  let arguments ← (Arguments.read items).mapError .arguments
  let config ← (Config.load (s.file arguments.config) s.environment).mapError .config
  let key ← (key s arguments).mapError .keyFile
  return { arguments, config, key }

/-! ## Starting -/

/-- All that a server can serve. -/
def plan (a : Arguments) : ServerPlan :=
  ⟨Routes.ofBundles Bundle.all, if a.lenient then some false else none⟩

/-- Opens a public room of a version under an alias. -/
def openRoom (s : Surroundings) (p : Peer) (versionId : String) : Except EventError Peer := do
  let version ← RoomVersion.ofId versionId
  let templates := initialEvents version (p.userId "host")
  let (r, next) ← p.makeRoom s.clock s.freshId versionId templates
  return (next.addAlias r.roomId "test").2

/-- Starts the server of a run at a port of its address, so that it listens. -/
def launch (s : Surroundings) (r : Prepared) (port : Option Nat) : Except RunError Server := do
  let server ← (Server.bind r.config (plan r.arguments) r.key port).mapError .peer
  let peer ← match r.arguments.roomVersion with
    | some versionId => (openRoom s server.peer versionId).mapError .event
    | none => pure server.peer
  let (started, server) := { server with peer }.listen
  started.mapError .peer
  return server

/-- Starts a server on a host that gives addresses their ports. -/
def start (s : Surroundings) (bind : String → Option Nat) (items : List String) :
    Except RunError Server := do
  let r ← prepare s items
  launch s r (bind r.config.peer.bindAddress)

/-- The end of a run whose server has listened. -/
def finish (server : Server) : Except RunError Unit := server.finish.mapError .peer

end Run

end Homeserver
