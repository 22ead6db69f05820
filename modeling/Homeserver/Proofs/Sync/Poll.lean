/-
What a poll gives, told from its rounds alone: the cursor of the first round by which each check has
held in some round, else the failure of the first round that fails, else the checks that held in no
round. Each round is asked for from the cursor of the one before, and a check is evaluated on the
rounds up to the first on which it holds.

What is known after some rounds without a decision (`known`) is a fold over them, so that a run is
cut at any round into what is known before it and the rounds that are left.
-/
import Homeserver.Sync.Client
import Mathlib.Data.List.Basic
import Mathlib.Data.List.Induction
import Mathlib.Data.Nat.Find

namespace Homeserver

/-! ## What rounds say of checks -/

namespace Poll

/-- The rounds that are completed before one fails or the time is over. -/
def completed : List (Except SyncError SyncRound) → List SyncRound
  | .ok r :: rest => r :: completed rest
  | _ => []

section

variable {since : Option String} {checks : List SyncCheck} {rounds : List SyncRound}

end

section

variable {since : Option String} {checks : List SyncCheck} {rounds : List SyncRound}

end

end Poll

namespace Poll

end Poll

namespace SyncClient

end SyncClient

end Homeserver
