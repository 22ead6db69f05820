/-
Waiters: handles on signals that are given once. Copies of a waiter share its signal.
-/
namespace Homeserver

/-- A handle on a signal. A copy of a waiter is the waiter itself. -/
structure Waiter where
  name : String
  /-- The number of its signal. -/
  signal : Nat
  deriving DecidableEq, Repr

/-- The signals there are, by their numbers, and whether each was given. -/
structure Signals where
  given : List Bool
  deriving DecidableEq, Repr

/-- The time was over before a signal was given. -/
structure WaitTimeout where
  name : String
  after : Nat
  deriving DecidableEq, Repr

def WaitTimeout.message (e : WaitTimeout) : String :=
  "timed out after " ++ toString e.after ++ "ms waiting for " ++ e.name

namespace Signals

/-- No signals. -/
def empty : Signals := ⟨[]⟩

/-- A waiter for a signal of its own. -/
def newWaiter (s : Signals) (name : String) : Waiter × Signals :=
  (⟨name, s.given.length⟩, ⟨s.given ++ [false]⟩)

/-- Gives the signal of a waiter, for good. -/
def finish (s : Signals) (w : Waiter) : Signals := ⟨s.given.set w.signal true⟩

def isFinished (s : Signals) (w : Waiter) : Bool := s.given.getD w.signal false

/-- Waits for at most this many milliseconds, during which no further signal is given. -/
def wait (s : Signals) (w : Waiter) (after : Nat) : Except WaitTimeout Unit :=
  if s.isFinished w then .ok () else .error ⟨w.name, after⟩

end Signals

end Homeserver
