/-
Authorisation chains as closures. Nothing bars an event from a walk along authorisations, so the
chain of some ids is all that can be reached from them, and of the ids only the set counts.

The walk comes to its end on every room, also where events authorise each other in a circle or are
not recorded at all: each turn takes one id out of the queue, and ids are put in only for an event
that is found, which no event is twice. So the turns are as many as the ids that are asked for and
those that the events of the chain name.
-/
import Homeserver.Proofs.Room.Walk

namespace Homeserver.Room

/-- The event is recorded under one of these ids, or authorises one that is, directly or through
others that are recorded. -/
def Authorises (r : Room) (ids : List String) (e : Event) : Prop :=
  r.Reach Event.authEvents (fun _ => True) ids e

/-! ## Visiting -/

section Visit

variable {r : Room} {id : String} {seen queue : List String}

theorem visitAuth_of_mem (h : id ∈ seen) :
    r.visitAuth seen (id :: queue) = r.visitAuth seen queue := by
  rw [visitAuth, dif_pos h]

theorem visitAuth_of_none (h : id ∉ seen) (hnone : r.event? id = none) :
    r.visitAuth seen (id :: queue) = r.visitAuth (id :: seen) queue := by
  rw [visitAuth, dif_neg h]
  split
  · rfl
  · rename_i e he
    rw [hnone] at he
    cases he

theorem visitAuth_of_some {e : Event} (h : id ∉ seen) (he : r.event? id = some e) :
    r.visitAuth seen (id :: queue) = e :: r.visitAuth (id :: seen) (queue ++ e.authEvents) := by
  rw [visitAuth, dif_neg h]
  split
  · rename_i hnone
    rw [he] at hnone
    cases hnone
  · rename_i f hf
    rw [he] at hf
    cases hf
    rfl

/-- What is visited is what a walk along authorisations enters. -/
theorem walk_visitAuth (r : Room) (seen queue : List String) :
    r.Walk Event.authEvents (fun _ => True) seen queue (r.visitAuth seen queue) := by
  induction seen, queue using visitAuth.induct r with
  | case1 seen =>
    rw [visitAuth]
    exact .done
  | case2 seen id queue hseen ih =>
    rw [visitAuth_of_mem hseen]
    exact .again hseen ih
  | case3 seen id queue hseen hnone ih =>
    rw [visitAuth_of_none hseen hnone]
    refine .bar (fun f hf => ?_) (List.subset_cons_self _ _) (List.Subset.refl _) ih
    rw [hnone] at hf
    cases hf
  | case4 seen id queue hseen e he ih =>
    rw [visitAuth_of_some hseen he]
    exact .enter hseen he trivial ih

end Visit

/-! ## Turns -/

/-- What a walk along authorisations has in hand: the ids that it has seen, those that stand in its
queue, and the events that it has found. -/
structure Search where
  seen : List String
  queue : List String
  found : List Event

/-- One turn of the walk, which takes the first id out of the queue. If the id was not seen before
and an event is recorded under it, the event is found, and what authorises it is queued. -/
def turn (r : Room) (s : Search) : Search :=
  match s.queue with
  | [] => s
  | id :: queue =>
    if id ∈ s.seen then { s with queue }
    else
      match r.event? id with
      | none => ⟨id :: s.seen, queue, s.found⟩
      | some e => ⟨id :: s.seen, queue ++ e.authEvents, s.found ++ [e]⟩

section Turn

variable {r : Room} {id : String} {seen queue : List String} {found : List Event}

theorem turn_of_mem (h : id ∈ seen) :
    r.turn ⟨seen, id :: queue, found⟩ = ⟨seen, queue, found⟩ := if_pos h

theorem turn_of_none (h : id ∉ seen) (hnone : r.event? id = none) :
    r.turn ⟨seen, id :: queue, found⟩ = ⟨id :: seen, queue, found⟩ := by
  simp only [turn, if_neg h, hnone]

theorem turn_of_some {e : Event} (h : id ∉ seen) (he : r.event? id = some e) :
    r.turn ⟨seen, id :: queue, found⟩ =
      ⟨id :: seen, queue ++ e.authEvents, found ++ [e]⟩ := by
  simp only [turn, if_neg h, he]

/-- The walk has emptied its queue, and has found what is to be visited, after one turn for each id
that stands in the queue and for each that an event which is found names. -/
theorem iterate_turn (r : Room) (seen queue : List String) (found : List Event) :
    ∃ seen', r.turn^[(queue ++ (r.visitAuth seen queue).flatMap Event.authEvents).length]
      ⟨seen, queue, found⟩ = ⟨seen', [], found ++ r.visitAuth seen queue⟩ := by
  induction seen, queue using visitAuth.induct r generalizing found with
  | case1 seen =>
    refine ⟨seen, ?_⟩
    rw [visitAuth, List.append_nil]
    rfl
  | case2 seen id queue hseen ih =>
    obtain ⟨seen', hrun⟩ := ih found
    refine ⟨seen', ?_⟩
    rw [visitAuth_of_mem hseen, List.cons_append, List.length_cons, Function.iterate_succ_apply,
      turn_of_mem hseen, hrun]
  | case3 seen id queue hseen hnone ih =>
    obtain ⟨seen', hrun⟩ := ih found
    refine ⟨seen', ?_⟩
    rw [visitAuth_of_none hseen hnone, List.cons_append, List.length_cons,
      Function.iterate_succ_apply, turn_of_none hseen hnone, hrun]
  | case4 seen id queue hseen e he ih =>
    obtain ⟨seen', hrun⟩ := ih (found ++ [e])
    refine ⟨seen', ?_⟩
    rw [visitAuth_of_some hseen he, List.flatMap_cons, List.cons_append, List.length_cons,
      Function.iterate_succ_apply, turn_of_some hseen he, ← List.append_assoc, hrun,
      List.append_assoc]
    rfl

end Turn

/-! ## Chains -/

section Chain

variable {r : Room} {ids : List String} {e : Event}

theorem mem_authChain_iff : e ∈ r.authChain ids ↔ r.Authorises ids e := by
  have hc : r.Closed Event.authEvents (fun _ => True) [] ids := fun _ hid => nomatch hid
  unfold authChain
  rw [mem_sortByDepth, (walk_visitAuth r [] ids).mem_iff hc]
  exact and_iff_left List.not_mem_nil

theorem mem_authChain (h : e ∈ r.authChain ids) : e ∈ r.events :=
  (mem_of_event? (mem_authChain_iff.mp h).event?).1

theorem nodup_authChain (r : Room) (ids : List String) :
    ((r.authChain ids).map Event.id).Nodup :=
  nodup_ids_sortByDepth.mpr (walk_visitAuth r [] ids).nodup

theorem precedes_authChain (r : Room) (ids : List String) :
    (r.authChain ids).Pairwise Precedes :=
  pairwise_precedes (pairwise_sortByDepth _) (nodup_authChain r ids)

/-- Of the ids that a chain starts from only the set counts. -/
theorem authChain_congr {ids' : List String} (h : ∀ id, id ∈ ids' ↔ id ∈ ids) :
    r.authChain ids' = r.authChain ids := by
  refine (precedes_authChain r ids').eq_of_mem_iff (precedes_authChain r ids) fun e => ?_
  rw [mem_authChain_iff, mem_authChain_iff]
  exact ⟨fun he => he.mono fun id => (h id).mp, fun he => he.mono fun id => (h id).mpr⟩

/-- Of what these events name as their authorisation, the chain holds all that is recorded. -/
def Covers (r : Room) (chain events : List Event) : Prop :=
  ∀ e ∈ events, ∀ id ∈ e.authEvents, r.contains id = true →
    ∃ f ∈ chain, f.id = id ∧ r.event? id = some f

/-- The chain of what some events name covers these events and itself. -/
theorem covers_authChain {events : List Event} (h : ∀ e ∈ events, e.authEvents ⊆ ids) :
    r.Covers (r.authChain ids) (events ++ r.authChain ids) := by
  intro e he id hid hrecorded
  obtain ⟨f, hf⟩ := event?_isSome hrecorded
  refine ⟨f, mem_authChain_iff.mpr ?_, (mem_of_event? hf).2, hf⟩
  rcases List.mem_append.mp he with he | he
  · exact .start (h e he hid) hf trivial
  · exact .step (mem_authChain_iff.mp he) hid hf trivial

end Chain

/-- Chains of authorisations are closures, whatever the room has recorded. The walk comes to its end
after one turn for each id that it is given and for each that an event of the chain names. The
chain holds exactly the events that are recorded under the ids and those that authorise them,
directly or through others, each once and in the order of depth and id. And it is the same for all
lists of the same ids. -/
theorem authChain_closure (r : Room) (ids : List String) :
    let chain := r.authChain ids
    (∃ seen found, r.turn^[(ids ++ chain.flatMap Event.authEvents).length] ⟨[], ids, []⟩ =
        ⟨seen, [], found⟩ ∧ sortByDepth found = chain) ∧
      (∀ e, e ∈ chain ↔ r.Authorises ids e) ∧
      (chain.map Event.id).Nodup ∧ chain.Pairwise Precedes ∧
      ∀ ids', (∀ id, id ∈ ids' ↔ id ∈ ids) → r.authChain ids' = chain := by
  intro chain
  refine ⟨?_, fun e => mem_authChain_iff, nodup_authChain r ids, precedes_authChain r ids,
    fun ids' => authChain_congr⟩
  have hperm : chain.Perm (r.visitAuth [] ids) := sortByDepth_perm _
  have hturns : (ids ++ chain.flatMap Event.authEvents).length =
      (ids ++ (r.visitAuth [] ids).flatMap Event.authEvents).length :=
    ((hperm.flatMap_right Event.authEvents).append_left ids).length_eq
  obtain ⟨seen, hrun⟩ := iterate_turn r [] ids []
  exact ⟨seen, _, hturns ▸ hrun, rfl⟩

end Homeserver.Room
