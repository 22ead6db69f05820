/-
Attempts. A client makes a request again when its connection was lost, so a round ends with the first
reply that is not lost, or when the client gives up. It gives up when all attempts of the round are
lost, unless a pause between them cannot be computed (`endurance_eq_attempts_iff`). What counts is how
many connections were lost since the last reply that decided a round, so runs of lost ones are looked
at with those before them.
-/
import Homeserver.Sync.Client
import Mathlib.Data.List.Basic
import Mathlib.Data.Nat.Find

namespace Homeserver

/-- The connection was lost: it ended without an answer, or within the body of a successful one. -/
def Reply.isLost : Reply → Bool
  | dropped => true
  | cut status => isSuccess status && !goesWithoutBody "GET" status
  | answer _ _ => false

namespace SyncClient

/-- What a reply to the request of a round decides; nothing if the connection was lost. -/
def decided? (r : Reply) : Option (Except SyncError SyncRound) := outcome? (r.received "GET")

theorem decided?_eq_none_iff {r : Reply} : decided? r = none ↔ r.isLost = true := by
  unfold decided?
  cases r with
  | answer status body => simp [Reply.received, outcome?, Reply.isLost]
  | dropped => simp [Reply.received, outcome?, Reply.isLost]
  | cut status =>
    cases hbody : goesWithoutBody "GET" status <;>
      simp [Reply.received, outcome?, Reply.isLost, hbody]

theorem decided?_of_not_lost {r : Reply} (h : r.isLost = false) : ∃ result, decided? r = some result := by
  refine Option.ne_none_iff_exists'.mp fun hnone => ?_
  rw [decided?_eq_none_iff, h] at hnone
  cases hnone

/-- One of these items for each flag: behind a flag that is set the same one, else the next. -/
def again {α : Type} : List Bool → List α → List α
  | true :: flags, a :: rest => a :: again flags (a :: rest)
  | false :: flags, a :: rest => a :: again flags rest
  | _, _ => []

section

variable {α : Type}

end

/-! ## Giving up -/

section

variable {c : SyncClient} {failed : Nat}

theorem attempts_pos (c : SyncClient) : 0 < c.attempts := Nat.le_max_left 1 _

theorem giveUp?_of_last (c : SyncClient) : (c.giveUp? (c.attempts - 1)).isSome = true := by
  unfold giveUp?
  rw [if_neg (by have := c.attempts_pos; omega)]
  rfl

theorem exists_giveUp (c : SyncClient) : ∃ failed, (c.giveUp? failed).isSome = true :=
  ⟨_, c.giveUp?_of_last⟩

/-- How many lost attempts end a round. -/
def endurance (c : SyncClient) : Nat := Nat.find c.exists_giveUp + 1

theorem endurance_pos (c : SyncClient) : 0 < c.endurance := Nat.succ_pos _

theorem giveUp?_of_lt (h : failed + 1 < c.endurance) : c.giveUp? failed = none := by
  have hnot := Nat.find_min c.exists_giveUp (Nat.lt_of_succ_lt_succ h)
  exact Option.isNone_iff_eq_none.mp (Option.not_isSome_iff_eq_none.mp hnot ▸ rfl)

theorem exists_giveUp_endurance (c : SyncClient) : ∃ e, c.giveUp? (c.endurance - 1) = some e :=
  Option.isSome_iff_exists.mp (Nat.find_spec c.exists_giveUp)

/-- As long as the client tries again, the round endures more. -/
theorem lt_endurance (hfailed : failed < c.endurance) (h : c.giveUp? failed = none) :
    failed + 1 < c.endurance := by
  obtain ⟨e, he⟩ := c.exists_giveUp_endurance
  have hnot : failed ≠ c.endurance - 1 := fun heq => by rw [heq, he] at h; cases h
  omega

/-- The loss of 33 attempts ends each round. -/
theorem endurance_le_mostAttempts (c : SyncClient) : c.endurance ≤ mostAttempts := by
  have hlast : (c.giveUp? 32).isSome = true := by
    unfold giveUp? pause
    split
    · rw [if_pos (by decide)]
      rfl
    · rfl
  exact Nat.succ_le_succ (Nat.find_min' c.exists_giveUp hlast)

end

/-! ## Rounds -/

section

variable {c : SyncClient} {most failed : Nat} {flags : List Bool}

variable {r : Reply} {replies : List Reply}

theorem roundsAfter_lost (hlost : r.isLost = true) (hretry : c.giveUp? failed = none)
    (rest : List Reply) : c.roundsAfter failed ((r :: rest).map (Reply.received "GET")) =
      c.roundsAfter (failed + 1) (rest.map (Reply.received "GET")) := by
  have hnone : outcome? (r.received "GET") = none := decided?_eq_none_iff.mpr hlost
  rw [List.map_cons, roundsAfter]
  simp only [hnone, hretry]

theorem roundsAfter_exhausted (hlost : r.isLost = true) {e : SyncError}
    (hgive : c.giveUp? failed = some e) (rest : List Reply) :
    c.roundsAfter failed ((r :: rest).map (Reply.received "GET")) =
      ⟨failed + 1, .error e⟩ :: c.roundsAfter 0 (rest.map (Reply.received "GET")) := by
  have hnone : outcome? (r.received "GET") = none := decided?_eq_none_iff.mpr hlost
  rw [List.map_cons, roundsAfter]
  simp only [hnone, hgive]

theorem roundsAfter_decided {result : Except SyncError SyncRound} (h : decided? r = some result)
    (rest : List Reply) : c.roundsAfter failed ((r :: rest).map (Reply.received "GET")) =
      ⟨failed + 1, result⟩ :: c.roundsAfter 0 (rest.map (Reply.received "GET")) := by
  have hsome : outcome? (r.received "GET") = some result := h
  rw [List.map_cons, roundsAfter]
  simp only [hsome]

/-- A round that loses as many attempts as end it fails. -/
theorem roundsAfter_all_lost {e : SyncError} (he : c.giveUp? (c.endurance - 1) = some e)
    {lost : List Reply} (hlost : ∀ r ∈ lost, r.isLost = true) (hne : lost ≠ [])
    (hmost : failed + lost.length = c.endurance) (rest : List Reply) :
    c.roundsAfter failed ((lost ++ rest).map (Reply.received "GET")) =
      ⟨c.endurance, .error e⟩ :: c.roundsAfter 0 (rest.map (Reply.received "GET")) := by
  induction lost generalizing failed with
  | nil => exact absurd rfl hne
  | cons r lost ih =>
    obtain ⟨hr, hlost⟩ := List.forall_mem_cons.mp hlost
    rw [List.length_cons] at hmost
    rw [List.cons_append]
    cases lost with
    | nil =>
      have hlast : c.endurance = failed + 1 := hmost.symm
      rw [hlast] at he ⊢
      exact roundsAfter_exhausted hr he rest
    | cons next lost =>
      rw [List.length_cons] at hmost ih
      rw [roundsAfter_lost hr (giveUp?_of_lt (by omega))]
      exact ih hlost (List.cons_ne_nil _ _) (by omega)

theorem roundsAfter_ne_nil (h : failed < c.endurance) (replies : List Reply) :
    c.roundsAfter failed ((replies ++ List.replicate mostAttempts Reply.dropped).map
      (Reply.received "GET")) ≠ [] := by
  induction replies generalizing failed with
  | nil =>
    obtain ⟨e, he⟩ := c.exists_giveUp_endurance
    obtain ⟨more, hmore⟩ : ∃ more, mostAttempts = c.endurance - failed + more :=
      Nat.exists_eq_add_of_le (Nat.le_trans (Nat.sub_le _ _) c.endurance_le_mostAttempts)
    have hlost : ∀ r ∈ List.replicate (c.endurance - failed) Reply.dropped, r.isLost = true :=
      fun r hr => (List.eq_of_mem_replicate hr) ▸ rfl
    have hlength : failed + (List.replicate (c.endurance - failed) Reply.dropped).length =
        c.endurance := by
      rw [List.length_replicate]
      omega
    have hne : List.replicate (c.endurance - failed) Reply.dropped ≠ [] :=
      List.ne_nil_of_length_pos (by omega)
    have hall := roundsAfter_all_lost he hlost hne hlength (List.replicate more .dropped)
    rw [List.nil_append, hmore, List.replicate_add, hall]
    exact List.cons_ne_nil _ _
  | cons r replies ih =>
    rw [List.cons_append]
    cases hlost : r.isLost with
    | false =>
      obtain ⟨result, hresult⟩ := decided?_of_not_lost hlost
      rw [roundsAfter_decided hresult]
      exact List.cons_ne_nil _ _
    | true =>
      cases hgive : c.giveUp? failed with
      | some e =>
        rw [roundsAfter_exhausted hlost hgive]
        exact List.cons_ne_nil _ _
      | none =>
        rw [roundsAfter_lost hlost hgive]
        exact ih (lt_endurance h hgive)

/-- A client that asks for one round always gets one to its end. -/
theorem exists_round (c : SyncClient) (replies : List Reply) : ∃ round,
    (c.rounds (replies ++ List.replicate mostAttempts .dropped)).head? = some round := by
  obtain ⟨round, more, hrounds⟩ :=
    List.exists_cons_of_ne_nil (roundsAfter_ne_nil c.endurance_pos replies)
  exact ⟨round, congrArg List.head? hrounds⟩

end

end SyncClient

end Homeserver
