/-
Polling: rounds of a sync are asked for, each from the cursor of the one before, until every check
has held in some round. A check that has held is not evaluated again. How long the server may hold a
round back depends on the time that is left when the round is asked for.
-/
import Homeserver.Sync.Error

namespace Homeserver

/-- A completed round: the answer, and the cursor from which the next one goes on. -/
structure SyncRound where
  body : Json
  cursor : String

/-- What is known before a round is asked for. -/
structure Poll where
  /-- The cursor to ask from. -/
  since : Option String
  /-- How many rounds are completed. -/
  rounds : Nat
  /-- The checks that have not held, with the reason from the last round. -/
  pending : List (SyncCheck × Unmet)

namespace Poll

def start (since : Option String) (checks : List SyncCheck) : Poll :=
  ⟨since, 0, checks.map (fun c => (c, .noResponse))⟩

/-- A check with the reason why it does not hold in an answer; nothing if it holds. -/
def unmet? (body : Json) (check : SyncCheck) : Option (SyncCheck × Unmet) :=
  match check.evaluate body with
  | .ok () => none
  | .error why => some (check, why)

/-- What is known after a completed round. -/
def observe (p : Poll) (r : SyncRound) : Poll :=
  ⟨some r.cursor, p.rounds + 1, p.pending.filterMap (fun c => unmet? r.body c.1)⟩

/-- The failure of a poll whose time, in milliseconds, is over. -/
def timedOut (p : Poll) (after : Nat) : SyncError :=
  .timeout p.rounds after (p.pending.map (fun c => (c.1.name, c.2)))

/-- Polls over the rounds that come before the time is over. Gives the cursor of the round by which
every check has held. -/
def run (p : Poll) (after : Nat) : List (Except SyncError SyncRound) → Except SyncError String
  | [] => .error (p.timedOut after)
  | .error e :: _ => .error e
  | .ok r :: rest =>
    let next := p.observe r
    if next.pending.isEmpty then .ok r.cursor else next.run after rest

/-- The rounds as they are counted, in 32 bits: one that cannot be counted breaks off. -/
def counted (results : List (Except SyncError SyncRound)) : List (Except SyncError SyncRound) :=
  results.mapIdx fun i result =>
    if i + 1 < UInt32.size then result else result >>= fun _ => .error (.overflow .rounds)

/-- The cursors from which the rounds of a run are asked for. -/
def asked (p : Poll) : List (Except SyncError SyncRound) → List (Option String)
  | [] => []
  | .error _ :: _ => [p.since]
  | .ok r :: rest =>
    let next := p.observe r
    p.since :: if next.pending.isEmpty then [] else next.asked rest

end Poll

/-! ## Time -/

/-- What a clock shows in the course of a poll, in nanoseconds. -/
structure PollClock where
  started : Nat
  /-- When a round is asked for behind so many completed ones. -/
  asked : Nat → Nat
  /-- When the poll is given up. -/
  ended : Nat

namespace PollClock

/-- When a poll that may take so many nanoseconds is over; nothing if the seconds of that time do not
fit into 64 bits with a sign. -/
def deadline? (clock : PollClock) (timeout : Nat) : Option Nat :=
  let time := clock.started + timeout
  if time / 1000000000 < 9223372036854775808 then some time else none

/-- How many milliseconds are left when a round is asked for, in 64 bits. -/
def left (clock : PollClock) (deadline completed : Nat) : Nat :=
  (deadline - clock.asked completed) / 1000000 % UInt64.size

/-- How many milliseconds the poll took. -/
def elapsed (clock : PollClock) : Nat := (clock.ended - clock.started) / 1000000

end PollClock

end Homeserver
