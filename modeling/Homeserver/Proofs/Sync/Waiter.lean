/-
Waiters over a whole history: waiters are made anew, copied, put in place of others, finished, asked
and waited for, in any order. Which signal a waiter is a handle on is told from the history alone
(`madeBy?`), as the number of waiters that were made anew before the first of its copies. A waiter is
finished iff one of the same signal was finished before, whatever copies were made in between; a
finished waiter stays so and is waited for without delay, and one that is not makes a wait fail with
its name.

A history lists its latest step first, so what a step finds is what the rest of the list makes.
-/
import Homeserver.Proofs.Table
import Homeserver.Sync.Waiter

namespace Homeserver

/-! ## Histories -/

/-- A step with waiters, which are kept under labels. -/
inductive WaiterStep where
  /-- A waiter of this name for a new signal is put under a label. -/
  | new (label name : String)
  /-- A copy of the waiter under a label is put under another one. -/
  | clone (source label : String)
  | finish (label : String)
  | isFinished (label : String)
  | wait (label : String) (after : Nat)
  deriving DecidableEq, Repr

def WaiterStep.isNew : WaiterStep → Bool
  | .new .. => true
  | _ => false

/-- The waiters under their labels, and their signals. -/
structure Waiters where
  signals : Signals
  held : Table String Waiter

namespace Waiters

def waiter? (s : Waiters) (label : String) : Option Waiter := Table.find? label s.held

/-- What a step makes of the waiters. Nothing comes of one with a label that has no waiter, and asking
and waiting change nothing. -/
def take (s : Waiters) : WaiterStep → Waiters
  | .new label name =>
    ⟨(s.signals.newWaiter name).2, Table.insert label (s.signals.newWaiter name).1 s.held⟩
  | .clone source label =>
    match s.waiter? source with
    | some w => { s with held := Table.insert label w s.held }
    | none => s
  | .finish label =>
    match s.waiter? label with
    | some w => { s with signals := s.signals.finish w }
    | none => s
  | .isFinished _ | .wait .. => s

/-- The waiters after a history. -/
def after : List WaiterStep → Waiters
  | [] => ⟨.empty, []⟩
  | step :: past => (after past).take step

end Waiters

/-! ## Signals told from the history -/

open WaiterStep

/-- The signal of the waiter under a label, as the number of waiters that were made anew before the
one it descends from: the waiter was made by a step, or copied from what was under another label. -/
def madeBy? : List WaiterStep → String → Option Nat
  | [], _ => none
  | .new l _ :: past, label => if l = label then some (past.countP isNew) else madeBy? past label
  | .clone source l :: past, label =>
    if l = label then (madeBy? past source).or (madeBy? past label) else madeBy? past label
  | .finish _ :: past, label => madeBy? past label
  | .isFinished _ :: past, label => madeBy? past label
  | .wait .. :: past, label => madeBy? past label

/-- The first waiter on a signal was made with this name. -/
def MadeAs (past : List WaiterStep) (signal : Nat) (name : String) : Prop :=
  ∃ later label earlier, past = later ++ .new label name :: earlier ∧ earlier.countP isNew = signal

/-- Some waiter on the signal was finished. -/
def GivenIn (past : List WaiterStep) (signal : Nat) : Prop :=
  ∃ later label earlier, past = later ++ .finish label :: earlier ∧
    madeBy? earlier label = some signal

theorem MadeAs.mono {past : List WaiterStep} {signal : Nat} {name : String}
    (h : MadeAs past signal name) (step : WaiterStep) : MadeAs (step :: past) signal name := by
  obtain ⟨later, label, earlier, rfl, hcount⟩ := h
  exact ⟨step :: later, label, earlier, rfl, hcount⟩

theorem GivenIn.mono {past : List WaiterStep} {signal : Nat} (h : GivenIn past signal)
    (more : List WaiterStep) : GivenIn (more ++ past) signal := by
  obtain ⟨later, label, earlier, rfl, hmade⟩ := h
  exact ⟨more ++ later, label, earlier, (List.append_assoc ..).symm, hmade⟩

theorem givenIn_cons {step : WaiterStep} {past : List WaiterStep} {signal : Nat} :
    GivenIn (step :: past) signal ↔
      (∃ label, step = .finish label ∧ madeBy? past label = some signal) ∨ GivenIn past signal := by
  constructor
  · rintro ⟨later, label, earlier, h, hmade⟩
    cases later with
    | nil =>
      cases h
      exact .inl ⟨label, rfl, hmade⟩
    | cons _ later =>
      cases h
      exact .inr ⟨later, label, earlier, rfl, hmade⟩
  · rintro (⟨label, rfl, hmade⟩ | h)
    · exact ⟨[], label, past, rfl, hmade⟩
    · exact h.mono [step]

namespace Waiters

/-! ## The waiters after a history -/

theorem length_take (s : Waiters) (step : WaiterStep) : (s.take step).signals.given.length =
    s.signals.given.length + if step.isNew = true then 1 else 0 := by
  cases step with
  | new label name => exact List.length_append
  | clone source label =>
    rw [take]
    split <;> rfl
  | finish label =>
    rw [take]
    split
    · exact List.length_set
    · rfl
  | _ => rfl

theorem length_after (past : List WaiterStep) :
    (after past).signals.given.length = past.countP isNew := by
  induction past with
  | nil => rfl
  | cons step past ih => rw [after, length_take, ih, List.countP_cons]

/-- The signal of each waiter is the one that the history tells. -/
theorem signal_after (past : List WaiterStep) (label : String) :
    ((after past).waiter? label).map Waiter.signal = madeBy? past label := by
  induction past generalizing label with
  | nil => rfl
  | cons step past ih =>
    rw [after]
    cases step with
    | new l name =>
      rw [madeBy?, ← ih, ← length_after]
      unfold waiter? take
      rw [Table.find?_insert]
      split <;> rfl
    | clone source l =>
      rw [madeBy?, ← ih, ← ih, take]
      cases hsource : (after past).waiter? source with
      | none =>
        rw [Option.map_none, Option.none_or, ite_self]
      | some w =>
        show (Table.find? label (Table.insert l w _)).map _ = _
        rw [Table.find?_insert]
        split <;> rfl
    | finish l =>
      rw [madeBy?, ← ih, take]
      split <;> rfl
    | isFinished l => rw [madeBy?, ← ih, take]
    | wait l ms => rw [madeBy?, ← ih, take]

theorem signal_of_waiter? {past : List WaiterStep} {label : String} {w : Waiter}
    (h : (after past).waiter? label = some w) : madeBy? past label = some w.signal := by
  rw [← signal_after, h, Option.map_some]

/-- A copy keeps the name with which the first waiter on its signal was made. -/
theorem name_after {past : List WaiterStep} {label : String} {w : Waiter}
    (h : (after past).waiter? label = some w) : MadeAs past w.signal w.name := by
  induction past generalizing label with
  | nil => cases h
  | cons step past ih =>
    rw [after] at h
    cases step with
    | new l name =>
      unfold waiter? take at h
      rw [Table.find?_insert] at h
      split at h
      · cases h
        exact ⟨[], l, past, rfl, (length_after past).symm⟩
      · exact (ih h).mono _
    | clone source l =>
      rw [take] at h
      split at h
      · rename_i v hv
        have hfind : Table.find? label (Table.insert l v (after past).held) = some w := h
        rw [Table.find?_insert] at hfind
        split at hfind
        · cases hfind
          exact (ih hv).mono _
        · exact (ih hfind).mono _
      · exact (ih h).mono _
    | finish l =>
      rw [take] at h
      split at h <;> exact (ih h).mono _
    | isFinished l => exact (ih h).mono _
    | wait l ms => exact (ih h).mono _

/-- There is a signal for each waiter. -/
theorem signal_lt {past : List WaiterStep} {label : String} {w : Waiter}
    (h : (after past).waiter? label = some w) :
    w.signal < (after past).signals.given.length := by
  obtain ⟨later, l, earlier, rfl, hcount⟩ := name_after h
  rw [length_after, List.countP_append, List.countP_cons_of_pos rfl, hcount]
  omega

/-! ## Signals that are given -/

theorem isFinished_newWaiter (s : Signals) (name : String) (w : Waiter) :
    (s.newWaiter name).2.isFinished w = s.isFinished w := by
  unfold Signals.newWaiter Signals.isFinished
  rw [List.getD_eq_getElem?_getD, List.getD_eq_getElem?_getD, List.getElem?_append]
  split
  · rfl
  · rename_i hge
    rw [List.getElem?_eq_none (Nat.le_of_not_lt hge)]
    cases w.signal - s.given.length <;> rfl

theorem isFinished_finish (s : Signals) {v : Waiter} (hv : v.signal < s.given.length) (w : Waiter) :
    (s.finish v).isFinished w = if v.signal = w.signal then true else s.isFinished w := by
  unfold Signals.finish Signals.isFinished
  rw [List.getD_eq_getElem?_getD, List.getD_eq_getElem?_getD, List.getElem?_set]
  split
  · rfl
  · rfl

theorem finish_of_isFinished {s : Signals} {w : Waiter} (h : s.isFinished w = true) :
    s.finish w = s := by
  unfold Signals.isFinished at h
  unfold Signals.finish
  congr 1
  refine List.ext_getElem? fun i => ?_
  rw [List.getElem?_set]
  split
  · rename_i hi
    subst hi
    rw [List.getD_eq_getElem?_getD] at h
    cases hget : s.given[w.signal]? with
    | none => simp [hget] at h
    | some b =>
      rw [hget, Option.getD_some] at h
      obtain ⟨hlt, -⟩ := List.getElem?_eq_some_iff.mp hget
      rw [if_pos hlt, h]
  · rfl

/-- A waiter is finished iff some waiter on its signal was. -/
theorem isFinished_after (past : List WaiterStep) (w : Waiter) :
    (after past).signals.isFinished w = true ↔ GivenIn past w.signal := by
  induction past with
  | nil =>
    refine ⟨fun h => ?_, ?_⟩
    · cases h
    · rintro ⟨later, label, earlier, h, -⟩
      exact absurd h (by simp)
  | cons step past ih =>
    rw [after, givenIn_cons, ← ih]
    cases step with
    | new label name =>
      simp only [reduceCtorEq, false_and, exists_false, false_or]
      rw [take, isFinished_newWaiter]
    | clone source label =>
      simp only [reduceCtorEq, false_and, exists_false, false_or]
      rw [take]
      split <;> rfl
    | finish label =>
      simp only [WaiterStep.finish.injEq, exists_eq_left']
      rw [take]
      cases hv : (after past).waiter? label with
      | some v =>
        show ((after past).signals.finish v).isFinished w = true ↔ _
        rw [isFinished_finish _ (signal_lt hv), signal_of_waiter? hv]
        split
        · rename_i he
          simp [he]
        · rename_i he
          simp [he]
      | none =>
        have hnone : madeBy? past label = none := by rw [← signal_after, hv, Option.map_none]
        simp [hnone]
    | _ =>
      simp only [reduceCtorEq, false_and, exists_false, false_or]
      rw [take]

/-! ## Waits -/

/-- What a wait gives that begins after a history and during which these steps are taken: it ends
with the signal, or when the time is over. -/
def waitDuring (past during : List WaiterStep) (w : Waiter) (ms : Nat) : Except WaitTimeout Unit :=
  (after (during ++ past)).signals.wait w ms

/-- Take a waiter that is kept under a label after some history, and its signal as the history tells
it. The waiter bears the name with which the first waiter on the signal was made. It is finished iff
some waiter on the signal was finished before. If it is finished, then it stays so whatever is done
later, to finish it again changes nothing, and each wait for it succeeds, without any step during it
and at any time. To finish it does not count for waiters on other signals. And a wait succeeds if some
waiter on the signal was finished before or is finished during it, and else fails with the name. -/
theorem one_shot {past : List WaiterStep} {label : String} {w : Waiter}
    (h : (after past).waiter? label = some w) : ∃ signal, madeBy? past label = some signal ∧
      MadeAs past signal w.name ∧
      ((after past).signals.isFinished w = true ↔ GivenIn past signal) ∧
      (GivenIn past signal → after (.finish label :: past) = after past ∧
        ∀ more, (after (more ++ past)).signals.isFinished w = true ∧
          ∀ ms, waitDuring (more ++ past) [] w ms = .ok ()) ∧
      (∀ other v, (after past).waiter? other = some v → madeBy? past other ≠ some signal →
        (after (.finish label :: past)).signals.isFinished v = (after past).signals.isFinished v) ∧
      ∀ during ms, (GivenIn (during ++ past) signal → waitDuring past during w ms = .ok ()) ∧
        (¬ GivenIn (during ++ past) signal → waitDuring past during w ms = .error ⟨w.name, ms⟩) := by
  have hfinish : after (.finish label :: past) =
      { after past with signals := (after past).signals.finish w } := by
    rw [after, take, h]
  refine ⟨w.signal, signal_of_waiter? h, name_after h, isFinished_after past w, fun hgiven => ⟨?_, ?_⟩,
    fun other v hv hne => ?_, fun during ms => ⟨fun hgiven => ?_, fun hnot => ?_⟩⟩
  · rw [hfinish, finish_of_isFinished ((isFinished_after past w).mpr hgiven)]
  · intro more
    have hstays := (isFinished_after (more ++ past) w).mpr (hgiven.mono more)
    exact ⟨hstays, fun ms => if_pos hstays⟩
  · have hsignal : w.signal ≠ v.signal := by
      intro he
      exact hne (by rw [signal_of_waiter? hv, he])
    rw [hfinish, isFinished_finish _ (signal_lt h), if_neg hsignal]
  · exact if_pos ((isFinished_after _ w).mpr hgiven)
  · exact if_neg (mt (isFinished_after _ w).mp hnot)

/-- A copy is made, the waiter is replaced by another one of its name, and the copy is finished. -/
def replaced : List WaiterStep :=
  [.finish "copy", .new "invite" "invited", .clone "invite" "copy", .new "invite" "invited"]

/-- The copy is finished for good, and a wait for the new waiter fails under their common name. -/
theorem one_shot_replaced :
    (∃ w, (after replaced).waiter? "copy" = some w ∧
      ∀ more ms, waitDuring (more ++ replaced) [] w ms = .ok ()) ∧
    ∃ w, (after replaced).waiter? "invite" = some w ∧
      waitDuring replaced [] w 20 = .error ⟨"invited", 20⟩ := by
  have hcopy : (after replaced).waiter? "copy" = some ⟨"invited", 0⟩ := by decide
  have hinvite : (after replaced).waiter? "invite" = some ⟨"invited", 1⟩ := by decide
  refine ⟨⟨_, hcopy, ?_⟩, ⟨_, hinvite, ?_⟩⟩
  · obtain ⟨signal, -, -, hfinished, hgiven, -⟩ := one_shot hcopy
    exact fun more => ((hgiven (hfinished.mp (by decide))).2 more).2
  · obtain ⟨signal, -, -, hfinished, -, -, hwait⟩ := one_shot hinvite
    exact (hwait [] 20).2 (mt hfinished.mpr (by decide))

end Waiters

end Homeserver
