/-
The program: a server on a socket that runs until it is interrupted.
-/
import Homeserver.CommandLine.Run
import Std.Http

namespace Homeserver.Program

open Std.Async

def help : String := "\n".intercalate [
  "Standalone emulated Matrix federation peer",
  "",
  "Usage: meshcheck-peer [OPTIONS]",
  "",
  "Options:",
  "  -c, --config <CONFIG>              Path to configuration file",
  "      --signing-key <SIGNING_KEY>    File holding the base64 ed25519 seed to sign with",
  "      --room-version <ROOM_VERSION>  Create a public room of this version at startup",
  "      --lenient                      Answer unmatched requests with 200",
  "  -h, --help                         Print help"]

/-! ## Surroundings -/

/-- What is found at a path. -/
def readFile (path : String) : IO Config.File := do
  try
    return .text (← IO.FS.readFile path)
  catch e =>
    match e with
    | .noFileOrDirectory .. => return .missing
    | _ => return .unreadable

/-- The time in milliseconds. -/
def now : IO Int := do return (← Std.Time.Timestamp.now).toMillisecondsSinceUnixEpoch.val

/-- Two digits for each byte. -/
def hex (bytes : List UInt8) : String :=
  String.ofList (bytes.flatMap (fun b =>
    [Nat.digitChar (b.toNat / 16), Nat.digitChar (b.toNat % 16)]))

/-- What is found when a run with these arguments starts. -/
def surroundings (items : List String) : IO Surroundings := do
  let paths := match Arguments.read items with
    | .ok a => a.config :: a.signingKey.toList
    | .error _ => []
  let files ← paths.mapM (fun path => return (path, ← readFile path))
  let settings ← Config.settingNames.mapM (fun name => return (name, ← IO.getEnv name))
  let times ← (initialEvents .default "").mapM (fun _ => now)
  return {
    file := fun path => (files.lookup path).getD .missing
    environment := fun name => (settings.lookup name).join
    freshKey := ⟨(← IO.getRandomBytes 32).toList⟩
    freshId := hex (← IO.getRandomBytes 16).toList
    clock := fun i => times.getD i 0 }

/-! ## Serving -/

/-- The server behind the socket; nothing before it is launched. -/
structure Shared where
  server : Std.Mutex (Option Server)

/-- Answers one request. -/
def Shared.answer (s : Shared) (method uri text : String) : IO Reply := do
  let q := Inbound.ofText (← now) method uri text
  s.server.atomically do
    match ← get with
    | none => return .dropped
    | some server =>
      let (answers, next) := server.serve [q]
      set (some next)
      return (answers.head?.map (PeerAnswer.reply · method)).getD .dropped

instance : Std.Http.Server.Handler Shared where
  ResponseBody := Std.Http.Body.Full
  onRequest s request := do
    let bytes : ByteArray ← request.body.readAll
    let text := (String.fromUTF8? bytes).getD ""
    match ← s.answer (toString request.line.method) (toString request.line.uri) text with
    | .answer status body =>
      let known := (Std.Http.Status.ofCode none (UInt16.ofNat status)).getD .internalServerError
      (Std.Http.Response.withStatus known).json body
    | _ => Std.Http.Response.serviceUnavailable.text ""

/-- The socket address of a text. -/
def address? (text : String) : Option Std.Net.SocketAddress := do
  let port := UInt16.ofNat (← SocketAddress.port? text)
  match ((text.toList.reverse.dropWhile (· ≠ ':')).drop 1).reverse with
  | '[' :: rest => return .v6 ⟨← Std.Net.IPv6Addr.ofString (String.ofList rest.dropLast), port⟩
  | host => return .v4 ⟨← Std.Net.IPv4Addr.ofString (String.ofList host), port⟩

/-- Reports why a run ends. -/
def report (e : RunError) : IO UInt32 := do
  match e with
  | .arguments .help => IO.println help
  | .arguments _ => IO.eprintln help
  | _ => IO.eprintln ("Error: " ++ (e.message?.getD ""))
  return UInt32.ofNat e.exitCode

/-- Serves until the program is interrupted. -/
def serve (s : Surroundings) (r : Run.Prepared) : Async UInt32 := do
  let some address := address? r.config.peer.bindAddress
    | report (.peer (.io "invalid address"))
  let shared : Shared := ⟨← Std.Mutex.new none⟩
  let listener ← Std.Http.Server.serve address shared
  let port := listener.localAddr.map (·.port.toNat)
  match Run.launch s r port with
  | .error e => report e
  | .ok server =>
    shared.server.atomically (set (some server))
    IO.println ("running " ++ server.peer.serverName ++ ", press ctrl-c to stop")
    let interrupted ← (← Signal.Waiter.mk .sigint false).wait
    discard (await interrupted)
    listener.shutdownAndWait
    let last ← shared.server.atomically get
    match Run.finish (last.getD server) with
    | .ok () => return 0
    | .error e => report e

end Homeserver.Program

open Homeserver Homeserver.Program in
def main (items : List String) : IO UInt32 := do
  let s ← surroundings items
  match Run.prepare s items with
  | .error e => report e
  | .ok r =>
    if r.config.peer.tls then report (.peer (.tls "no certificates can be made"))
    else (serve s r).block
