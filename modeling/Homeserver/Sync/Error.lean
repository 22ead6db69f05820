/-
Why a sync fails, and the wording.
-/
import Homeserver.Net.Url
import Homeserver.Sync.Check

namespace Homeserver

/-- Why the body of a successful answer is no round. -/
inductive InvalidRound where
  | notJson
  | noCursor
  | described (text : String)
  deriving DecidableEq, Repr

/-- Why no client reaches a server. -/
inductive ClientFault where
  | badUrl (text : String) (cause : UrlError)
  | noPath (cause : UrlError)
  | described (text : String)
  deriving DecidableEq, Repr

/-- What would be greater than it can be. -/
inductive SyncOverflow where
  | deadline
  | rounds
  /-- By how much a pause is longer than the first one. -/
  | factor
  | pause
  deriving DecidableEq, Repr

/-- Why a sync fails. -/
inductive SyncError where
  /-- The time was over before all checks had held. -/
  | timeout (rounds after : Nat) (unmet : List (String × Unmet))
  /-- The last allowed attempt failed as those before. -/
  | transport (attempts : Nat) (reason : String)
  | refused (status : Nat) (body : String)
  | invalid (cause : InvalidRound)
  | client (cause : ClientFault)
  /-- A sum or a product is too great: the sync breaks off. -/
  | overflow (cause : SyncOverflow)
  deriving DecidableEq, Repr

namespace InvalidRound

def message : InvalidRound → String
  | notJson => "body is not JSON"
  | noCursor => "missing next_batch"
  | described text => text

end InvalidRound

namespace ClientFault

def message : ClientFault → String
  | badUrl text cause => text ++ ": " ++ cause.message
  | noPath cause => cause.message
  | described text => text

end ClientFault

namespace SyncOverflow

def message : SyncOverflow → String
  | deadline => "overflow when adding duration to instant"
  | rounds => "attempt to add with overflow"
  | factor => "attempt to multiply with overflow"
  | pause => "overflow when multiplying duration by scalar"

end SyncOverflow

namespace SyncError

def unmetText (u : String × Unmet) : String := u.1 ++ " (" ++ u.2.message ++ ")"

def message : SyncError → String
  | timeout rounds after unmet =>
    "sync timed out after " ++ toString rounds ++ " round(s) and " ++ toString after ++
      "ms; unmet: " ++ "; ".intercalate (unmet.map unmetText)
  | transport attempts reason =>
    "sync transport failed after " ++ toString attempts ++ " attempt(s): " ++ reason
  | refused status body => "sync returned " ++ toString status ++ ": " ++ body
  | invalid cause => "invalid sync response: " ++ cause.message
  | client cause => "invalid client config: " ++ cause.message
  | overflow cause => cause.message

/-- The names of the checks that never held. -/
def unmetNames : SyncError → List String
  | timeout _ _ unmet => unmet.map Prod.fst
  | _ => []

end SyncError

end Homeserver
