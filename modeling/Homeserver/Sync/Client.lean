/-
A user's client of the server under test: the request of a sync round, its attempts, and polling
until checks hold. Behind a lost connection the client pauses, each time twice as long, and tries
again; any other failure is final.
-/
import Homeserver.Config
import Homeserver.Json.Reader
import Homeserver.Net.Exchange
import Homeserver.Sync.Poll

namespace Homeserver

/-! ## Requests -/

/-- What is asked of a round. -/
structure SyncRequest where
  since : Option String := none
  /-- For how many milliseconds the server may hold the answer back. -/
  timeout : Nat := 1000
  filter : Option String := none
  fullState : Bool := false
  presence : Option String := none
  deriving DecidableEq, Repr

namespace SyncRequest

def ofConfig (c : SyncConfig) : SyncRequest := { timeout := c.longPoll }

/-- The parameters of a request, of which only those are sent that are set. -/
def query (r : SyncRequest) : List (String × String) :=
  [("timeout", toString r.timeout)] ++
    (r.since.map (fun s => ("since", s))).toList ++
    (r.filter.map (fun s => ("filter", s))).toList ++
    (if r.fullState then [("full_state", "true")] else []) ++
    (r.presence.map (fun s => ("set_presence", s))).toList

end SyncRequest

/-- A user's client of a server. -/
structure SyncClient where
  base : Url
  token : String
  config : SyncConfig

/-- What came of a round, and how often it was asked for. -/
structure AttemptedRound where
  attempts : Nat
  result : Except SyncError SyncRound

namespace SyncClient

/-- A client of the server with this base URL. -/
def ofUrl (base token : String) (config : SyncConfig) : Except SyncError SyncClient :=
  match Url.read base with
  | .ok url => .ok ⟨url, token, config⟩
  | .error e => .error (.client (.badUrl base e))

/-- The URL at which the server answers rounds. -/
def url (c : SyncClient) : Except SyncError Url :=
  (c.base.join ["_matrix", "client", "v3", "sync"]).mapError (fun e => .client (.noPath e))

/-- How often a round is attempted. -/
def attempts (c : SyncClient) : Nat := max 1 c.config.retries

/-- The request of a round as the server receives it. -/
def request (c : SyncClient) (u : Url) (r : SyncRequest) : Request where
  method := "GET"
  target := (u.addQuery r.query).target
  authorization := headerValue ("Bearer " ++ c.token)
  body := none

/-- Whether requests leave the client: the token can be sent, and the scheme is of the web. -/
def canSend (c : SyncClient) : Bool := isHeaderValue c.token && c.base.isWeb

/-! ## Rounds -/

/-- Reads the body of a successful answer. -/
def readRound (body : String) : Except SyncError SyncRound :=
  match Json.read? body with
  | none => .error (.invalid .notJson)
  | some v => match (v.get? "next_batch").bind Json.string? with
    | some cursor => .ok ⟨v, cursor⟩
    | none => .error (.invalid .noCursor)

/-- What an attempt gives; nothing if it is to be retried. -/
def outcome? : Reply → Option (Except SyncError SyncRound)
  | .dropped => none
  | .cut status => if isSuccess status then none else some (.error (.refused status ""))
  | .answer status body =>
    some (if isSuccess status then readRound body else .error (.refused status (bodyText body)))

/-- The pause behind a lost attempt that so many lost ones came before, in milliseconds. The factor
has 32 bits, and the seconds of the pause have 64. -/
def pause (c : SyncClient) (failed : Nat) : Except SyncOverflow Nat :=
  let factor := Nat.pow 2 failed
  if UInt32.size ≤ factor then .error .factor
  else if UInt64.size ≤ c.config.retryDelay * factor / 1000 then .error .pause
  else .ok (c.config.retryDelay * factor)

/-- Why a lost attempt that so many lost ones came before ends the round; nothing if the client tries
again. There is no pause behind the last attempt. -/
def giveUp? (c : SyncClient) (failed : Nat) : Option SyncError :=
  if failed + 1 < c.attempts then
    match c.pause failed with
    | .ok _ => none
    | .error cause => some (.overflow cause)
  else some (.transport (failed + 1) "connection lost")

/-- The rounds that replies make up: a round ends with a reply that decides it, or when the client
gives up. Replies that leave a round undecided at the end make up no round. -/
def roundsAfter (c : SyncClient) (failed : Nat) : List Reply → List AttemptedRound
  | [] => []
  | reply :: rest =>
    match outcome? reply with
    | some result => ⟨failed + 1, result⟩ :: c.roundsAfter 0 rest
    | none => match c.giveUp? failed with
      | some e => ⟨failed + 1, .error e⟩ :: c.roundsAfter 0 rest
      | none => c.roundsAfter (failed + 1) rest

/-- The rounds that a client completes with these replies. -/
def rounds (c : SyncClient) (replies : List Reply) : List AttemptedRound :=
  c.roundsAfter 0 (replies.map (Reply.received "GET"))

/-- A request that does not leave the client. -/
def unsent : AttemptedRound := ⟨0, .error (.transport 1 "request not sent")⟩

/-- As many attempts as a round can have: behind the last one the factor of a pause has no place in 32
bits. -/
def mostAttempts : Nat := 33

/-- Asks for one round; behind the replies all connections are lost. Gives what came of it and the
requests that were made. -/
def sync (c : SyncClient) (r : SyncRequest) (replies : List Reply) :
    Except SyncError SyncRound × List Request :=
  match c.url with
  | .error e => (.error e, [])
  | .ok u =>
    let round := if !c.canSend then unsent else
      (c.rounds (replies ++ List.replicate mostAttempts .dropped)).head?.getD unsent
    (round.result, List.replicate round.attempts (c.request u r))

/-! ## Polling -/

/-- The rounds that a client completes before the time is over. -/
def roundsIn (c : SyncClient) (timeout : Nat) (replies : List Reply) : List AttemptedRound :=
  if !c.canSend then [unsent] else if timeout = 0 then [] else c.rounds replies

/-- What a poll that is over at this time asks of the round behind so many completed ones. -/
def pollRequest (c : SyncClient) (clock : PollClock) (deadline completed : Nat)
    (since : Option String) : SyncRequest :=
  { SyncRequest.ofConfig c.config with
    since, timeout := min c.config.longPoll (clock.left deadline completed) }

/-- Asks for rounds from a cursor on until every check has held or the time, in nanoseconds, is over.
The replies are those that come in time. Gives the cursor of the last round, and the requests of
completed rounds. -/
def syncUntil (c : SyncClient) (clock : PollClock) (since : Option String) (timeout : Nat)
    (checks : List SyncCheck) (replies : List Reply) : Except SyncError String × List Request :=
  match clock.deadline? timeout with
  | none => (.error (.overflow .deadline), [])
  | some deadline => match c.url with
    | .error e => (.error e, [])
    | .ok u =>
      let rounds := c.roundsIn timeout replies
      let results := Poll.counted (rounds.map AttemptedRound.result)
      let poll := Poll.start since checks
      let asked := (poll.asked results).mapIdx (c.pollRequest clock deadline)
      let requests := List.zipWith
        (fun (round : AttemptedRound) r => List.replicate round.attempts (c.request u r))
        rounds asked
      (poll.run clock.elapsed results, requests.flatten)

end SyncClient

end Homeserver
