/-
Walks back through a room, against what can be reached. A turn of a walk passes over an id that it has
had, bars one that it may not enter, or enters an event and has its parents follow (`Walk`). A walk
that comes to its end has entered exactly the events to which parents lead over events that it may
enter, each of them once. One that its limit cuts short has entered the first of them, as many as the
limit says, and of each a child or a latest event to which it is a parent.

So what is served between the latest and the earliest events is decided by reachability alone. The
walk enters no earliest event, but it comes to the events behind one as soon as another way leads
there: over a fork that rejoins behind it, or because a latest event stands there itself.
-/
import Homeserver.Proofs.Room.Delivery
import Homeserver.Proofs.Room.Order
import Homeserver.Room.Walk
import Mathlib.Data.Set.Card

namespace Homeserver.Room

/-! ## What can be reached -/

/-- The recorded events to which steps lead from these ids, over events that may be entered. -/
inductive Reach (r : Room) (next : Event → List String) (mayEnter : Event → Prop)
    (start : List String) : Event → Prop
  | start {id : String} {e : Event} : id ∈ start → r.event? id = some e → mayEnter e →
      Reach r next mayEnter start e
  | step {f e : Event} {id : String} : Reach r next mayEnter start f → id ∈ next f →
      r.event? id = some e → mayEnter e → Reach r next mayEnter start e

section Reach

variable {r : Room} {next : Event → List String} {mayEnter : Event → Prop}
  {start start' : List String} {e : Event}

theorem Reach.event? (h : r.Reach next mayEnter start e) : r.event? e.id = some e := by
  cases h with
  | start _ he _ => rw [(mem_of_event? he).2, he]
  | step _ _ he _ => rw [(mem_of_event? he).2, he]

theorem Reach.entered (h : r.Reach next mayEnter start e) : mayEnter e := by
  cases h with
  | start _ _ h => exact h
  | step _ _ _ h => exact h

/-- What can be reached from ids that can be reached themselves. -/
theorem Reach.trans (h : r.Reach next mayEnter start e)
    (hs : ∀ id ∈ start, id ∈ start' ∨ ∃ f, r.Reach next mayEnter start' f ∧ id ∈ next f) :
    r.Reach next mayEnter start' e := by
  induction h with
  | start hid he hm =>
    rcases hs _ hid with hid | ⟨f, hf, hid⟩
    · exact .start hid he hm
    · exact .step hf hid he hm
  | step _ hid he hm ih => exact .step ih hid he hm

theorem Reach.mono (h : r.Reach next mayEnter start e) (hs : start ⊆ start') :
    r.Reach next mayEnter start' e :=
  h.trans fun _ hid => .inl (hs hid)

theorem not_reach_nil : ¬ r.Reach next mayEnter [] e := by
  intro h
  induction h with
  | start hid _ _ => cases hid
  | step _ _ _ _ ih => exact ih

/-- An id under which nothing may be entered leads nowhere. -/
theorem Reach.of_cons {id : String} (hid : ∀ f, r.event? id = some f → ¬ mayEnter f)
    (h : r.Reach next mayEnter (id :: start) e) : r.Reach next mayEnter start e := by
  induction h with
  | start hm he hent =>
    rcases List.mem_cons.mp hm with rfl | hm
    · exact absurd hent (hid _ he)
    · exact .start hm he hent
  | step _ hm he hent ih => exact .step ih hm he hent

theorem Reach.not_mem_cons {id : String} {seen : List String}
    (hid : ∀ f, r.event? id = some f → ¬ mayEnter f) (h : r.Reach next mayEnter start e)
    (he : e.id ∉ seen) : e.id ∉ id :: seen := by
  intro hm
  rcases List.mem_cons.mp hm with heq | hm
  · exact hid e (heq ▸ h.event?) h.entered
  · exact he hm

/-- What a walk has seen leads only to what it has seen and to what stands in its queue. -/
def Closed (r : Room) (next : Event → List String) (mayEnter : Event → Prop)
    (seen queue : List String) : Prop :=
  ∀ id ∈ seen, ∀ f, r.event? id = some f → mayEnter f →
    ∀ p ∈ next f, ∀ g, r.event? p = some g → mayEnter g → p ∈ seen ∨ p ∈ queue

/-- A walk stays closed when it sees more, if what it saw and queued before is seen or still queued
and so is all to which what it sees now leads. -/
theorem Closed.step {seen queue seen' queue' : List String}
    (hc : r.Closed next mayEnter seen queue) (hsub : seen ⊆ seen')
    (hseen : ∀ id ∈ seen', id ∈ seen ∨
      ∀ f, r.event? id = some f → mayEnter f → ∀ p ∈ next f, p ∈ queue')
    (hqueue : ∀ p ∈ queue, ∀ g, r.event? p = some g → mayEnter g → p ∈ seen' ∨ p ∈ queue') :
    r.Closed next mayEnter seen' queue' := by
  intro id hid f hf hm p hp g hg hmg
  rcases hseen id hid with hid | hnew
  · rcases hc id hid f hf hm p hp g hg hmg with h | h
    · exact .inl (hsub h)
    · exact hqueue p h g hg hmg
  · exact .inr (hnew f hf hm p hp)

/-- An id under which nothing may be entered is passed over. -/
theorem Closed.pass {id : String} {seen seen' queue : List String}
    (hc : r.Closed next mayEnter seen (id :: queue))
    (hid : ∀ f, r.event? id = some f → ¬ mayEnter f) (hsub : seen ⊆ seen')
    (hsup : seen' ⊆ id :: seen) : r.Closed next mayEnter seen' queue := by
  refine hc.step hsub (fun p hp => ?_) (fun p hp g hg hm => ?_)
  · rcases List.mem_cons.mp (hsup hp) with rfl | hp
    · exact .inr fun f hf hm => absurd hm (hid f hf)
    · exact .inl hp
  · rcases List.mem_cons.mp hp with rfl | hp
    · exact absurd hm (hid g hg)
    · exact .inr hp

theorem Closed.of_seen {id : String} {seen queue : List String}
    (hc : r.Closed next mayEnter seen (id :: queue)) (hid : id ∈ seen) :
    r.Closed next mayEnter seen queue := by
  refine hc.step (List.Subset.refl _) (fun _ hp => .inl hp) fun p hp _ _ _ => ?_
  rcases List.mem_cons.mp hp with rfl | hp
  · exact .inl hid
  · exact .inr hp

theorem Closed.visit {id : String} {seen queue : List String} {f : Event}
    (hc : r.Closed next mayEnter seen (id :: queue)) (hf : r.event? id = some f) :
    r.Closed next mayEnter (id :: seen) (queue ++ next f) := by
  refine hc.step (List.subset_cons_self _ _) (fun p hp => ?_) fun p hp _ _ _ => ?_
  · rcases List.mem_cons.mp hp with rfl | hp
    · refine .inr fun g hg _ q hq => List.mem_append_right _ ?_
      rw [hf] at hg
      cases hg
      exact hq
    · exact .inl hp
  · rcases List.mem_cons.mp hp with rfl | hp
    · exact .inl List.mem_cons_self
    · exact .inr (List.mem_append_left _ hp)

/-- What is reached from seen ids and queued ones is seen or reached from queued ones. -/
theorem Closed.reach {seen queue : List String} (hc : r.Closed next mayEnter seen queue)
    (h : r.Reach next mayEnter start e) (hs : ∀ id ∈ start, id ∈ seen ∨ id ∈ queue) :
    e.id ∈ seen ∨ r.Reach next mayEnter queue e := by
  have hplace : ∀ {id : String} {e : Event}, id ∈ seen ∨ id ∈ queue → r.event? id = some e →
      mayEnter e → e.id ∈ seen ∨ r.Reach next mayEnter queue e := by
    intro id e hid he hm
    rcases hid with hid | hid
    · exact .inl ((mem_of_event? he).2 ▸ hid)
    · exact .inr (.start hid he hm)
  induction h with
  | start hid he hm => exact hplace (hs _ hid) he hm
  | step hf hid he hm ih =>
    rcases ih with hseen | hreach
    · exact hplace (hc _ hseen _ hf.event? hf.entered _ hid _ he hm) he hm
    · exact .inr (.step hreach hid he hm)

end Reach

/-! ## Walks -/

/-- A walk that has seen some ids and goes on through a queue, with the events that it enters. An id
that was seen is passed over, and so is one under which nothing may be entered, whether or not it
then counts as seen. An event that is entered puts what it leads to at the end of the queue. -/
inductive Walk (r : Room) (next : Event → List String) (mayEnter : Event → Prop) :
    List String → List String → List Event → Prop
  | done {seen : List String} : Walk r next mayEnter seen [] []
  | again {id : String} {seen queue : List String} {l : List Event} : id ∈ seen →
      Walk r next mayEnter seen queue l → Walk r next mayEnter seen (id :: queue) l
  | bar {id : String} {seen seen' queue : List String} {l : List Event} :
      (∀ f, r.event? id = some f → ¬ mayEnter f) → seen ⊆ seen' → seen' ⊆ id :: seen →
      Walk r next mayEnter seen' queue l → Walk r next mayEnter seen (id :: queue) l
  | enter {id : String} {f : Event} {seen queue : List String} {l : List Event} : id ∉ seen →
      r.event? id = some f → mayEnter f → Walk r next mayEnter (id :: seen) (queue ++ next f) l →
      Walk r next mayEnter seen (id :: queue) (f :: l)

section Walk

variable {r : Room} {next : Event → List String} {mayEnter : Event → Prop}
  {seen queue : List String} {l : List Event} {e : Event}

/-- Every walk comes to its end: it never enters an event twice, and there are as many as are
recorded. -/
theorem exists_walk (r : Room) (next : Event → List String) (mayEnter : Event → Prop)
    (seen queue : List String) : ∃ l, r.Walk next mayEnter seen queue l := by
  match queue with
  | [] => exact ⟨[], .done⟩
  | id :: queue =>
    by_cases hseen : id ∈ seen
    · obtain ⟨l, hl⟩ := exists_walk r next mayEnter seen queue
      exact ⟨l, .again hseen hl⟩
    · by_cases henter : ∃ f, r.event? id = some f ∧ mayEnter f
      · obtain ⟨f, hf, hm⟩ := henter
        obtain ⟨l, hl⟩ := exists_walk r next mayEnter (id :: seen) (queue ++ next f)
        exact ⟨f :: l, .enter hseen hf hm hl⟩
      · obtain ⟨l, hl⟩ := exists_walk r next mayEnter seen queue
        exact ⟨l, .bar (fun f hf hm => henter ⟨f, hf, hm⟩) (List.Subset.refl _)
          (List.subset_cons_self _ _) hl⟩
termination_by (r.unseen seen, queue.length)
decreasing_by
  · exact Prod.Lex.right _ (by simp)
  · exact Prod.Lex.left _ _ (unseen_cons_lt (by assumption) (by assumption))
  · exact Prod.Lex.right _ (by simp)

/-- What a walk enters can be reached, and was not seen before. -/
theorem Walk.reach (h : r.Walk next mayEnter seen queue l) (he : e ∈ l) :
    r.Reach next mayEnter queue e ∧ e.id ∉ seen := by
  induction h with
  | done => cases he
  | again _ _ ih =>
    obtain ⟨hreach, hunseen⟩ := ih he
    exact ⟨hreach.mono (List.subset_cons_self _ _), hunseen⟩
  | bar _ hsub _ _ ih =>
    obtain ⟨hreach, hunseen⟩ := ih he
    exact ⟨hreach.mono (List.subset_cons_self _ _), fun hm => hunseen (hsub hm)⟩
  | @enter id f seen queue l hseen hf hm _ ih =>
    have hfirst : r.Reach next mayEnter (id :: queue) f := .start List.mem_cons_self hf hm
    rcases List.mem_cons.mp he with rfl | he
    · exact ⟨hfirst, (mem_of_event? hf).2 ▸ hseen⟩
    · obtain ⟨hreach, hunseen⟩ := ih he
      refine ⟨hreach.trans fun p hp => ?_, fun hm => hunseen (List.mem_cons_of_mem _ hm)⟩
      rcases List.mem_append.mp hp with hp | hp
      · exact .inl (List.mem_cons_of_mem _ hp)
      · exact .inr ⟨f, hfirst, hp⟩

/-- A walk enters no event twice. -/
theorem Walk.nodup (h : r.Walk next mayEnter seen queue l) : (l.map Event.id).Nodup := by
  induction h with
  | done => exact List.nodup_nil
  | again _ _ ih => exact ih
  | bar _ _ _ _ ih => exact ih
  | enter _ hf _ hwalk ih =>
    -- what is entered after the event was not seen when the event was
    refine List.nodup_cons.mpr ⟨fun hm => ?_, ih⟩
    obtain ⟨g, hg, hid⟩ := List.mem_map.mp hm
    have hunseen := (hwalk.reach hg).2
    rw [hid, (mem_of_event? hf).2] at hunseen
    exact hunseen List.mem_cons_self

/-- A walk enters everything that it has not seen and that can be reached from its queue. -/
theorem Walk.mem_of_reach (h : r.Walk next mayEnter seen queue l)
    (hc : r.Closed next mayEnter seen queue) (hreach : r.Reach next mayEnter queue e)
    (he : e.id ∉ seen) : e ∈ l := by
  -- along the walk: as long as it is closed, what it passes over leads to nothing that it misses
  induction h with
  | done => exact absurd hreach not_reach_nil
  | again hseen _ ih =>
    have hc' := hc.of_seen hseen
    have hrest := hc'.reach hreach (List.forall_mem_cons.mpr ⟨.inl hseen, fun _ hp => .inr hp⟩)
    exact ih hc' (hrest.resolve_left he) he
  | bar hid hsub hsup _ ih =>
    have hunseen := hreach.not_mem_cons hid he
    exact ih (hc.pass hid hsub hsup) (hreach.of_cons hid) fun hm => hunseen (hsup hm)
  | @enter id f seen queue l hseen hf _ _ ih =>
    by_cases hself : e.id = id
    · have hef := hreach.event?
      rw [hself, hf] at hef
      cases hef
      exact List.mem_cons_self
    · have hc' := hc.visit hf
      have hnew : e.id ∉ id :: seen := fun hm => (List.mem_cons.mp hm).elim hself he
      have hrest := hc'.reach hreach (List.forall_mem_cons.mpr
        ⟨.inl List.mem_cons_self, fun _ hp => .inr (List.mem_append_left _ hp)⟩)
      exact List.mem_cons_of_mem _ (ih hc' (hrest.resolve_left hnew) hnew)

theorem Walk.mem_iff (h : r.Walk next mayEnter seen queue l)
    (hc : r.Closed next mayEnter seen queue) :
    e ∈ l ↔ r.Reach next mayEnter queue e ∧ e.id ∉ seen :=
  ⟨h.reach, fun he => h.mem_of_reach hc he.1 he.2⟩

/-- A walk enters an event because its id was queued from the start, or because an event that it
entered before leads to it. -/
theorem Walk.led (h : r.Walk next mayEnter seen queue l) {pre post : List Event}
    (hl : l = pre ++ e :: post) : e.id ∈ queue ∨ ∃ f ∈ pre, e.id ∈ next f := by
  induction h generalizing pre with
  | done => simp at hl
  | again _ _ ih => exact (ih hl).imp_left (List.mem_cons_of_mem _)
  | bar _ _ _ _ ih => exact (ih hl).imp_left (List.mem_cons_of_mem _)
  | @enter id f seen queue l _ hf _ _ ih =>
    cases pre with
    | nil =>
      cases hl
      exact .inl ((mem_of_event? hf).2 ▸ List.mem_cons_self)
    | cons g pre =>
      obtain ⟨rfl, hrest⟩ := List.cons.inj hl
      rcases ih hrest with hq | ⟨g, hg, hid⟩
      · rcases List.mem_append.mp hq with hq | hq
        · exact .inl (List.mem_cons_of_mem _ hq)
        · exact .inr ⟨f, List.mem_cons_self, hq⟩
      · exact .inr ⟨g, List.mem_cons_of_mem _ hg, hid⟩

theorem unseen_mono (r : Room) {seen seen' : List String} (h : seen ⊆ seen') :
    r.unseen seen' ≤ r.unseen seen := by
  refine (List.monotone_filter_right r.events fun e he => ?_).length_le
  rw [decide_eq_true_eq] at he ⊢
  exact fun hm => he (h hm)

theorem Walk.length_le (h : r.Walk next mayEnter seen queue l) : l.length ≤ r.unseen seen := by
  induction h with
  | done => exact Nat.zero_le _
  | again _ _ ih => exact ih
  | bar _ hsub _ _ ih => exact Nat.le_trans ih (unseen_mono r hsub)
  | enter hseen hf _ _ ih =>
    have := unseen_cons_lt hf hseen
    rw [List.length_cons]
    omega

end Walk

/-! ## Walks along parents -/

/-- A walk along parents may enter an event that is not among those that stop it and is deep
enough. -/
def MayVisit (stop : List String) (minDepth : Int) (e : Event) : Prop :=
  e.id ∉ stop ∧ minDepth ≤ e.depth

instance (stop : List String) (minDepth : Int) (e : Event) : Decidable (MayVisit stop minDepth e) :=
  inferInstanceAs (Decidable (_ ∧ _))

section Visit

variable {r : Room} {stop : List String} {minDepth : Int}

theorem visitParents_cons (limit : Nat) (seen : List String) (id : String) (queue : List String) :
    r.visitParents stop minDepth limit seen (id :: queue) =
      if limit = 0 then []
      else if id ∈ stop ∨ id ∈ seen then r.visitParents stop minDepth limit seen queue
      else match r.event? id with
        | none => r.visitParents stop minDepth limit (id :: seen) queue
        | some e =>
          if e.depth < minDepth then r.visitParents stop minDepth limit (id :: seen) queue
          else e :: r.visitParents stop minDepth (limit - 1) (id :: seen) (queue ++ e.prevEvents) := by
  rw [visitParents]
  by_cases hlimit : limit = 0
  · rw [if_pos hlimit, if_pos hlimit]
  · by_cases hstop : id ∈ stop
    · simp [hlimit, hstop]
    · by_cases hseen : id ∈ seen
      · simp [hlimit, hstop, hseen]
      · simp only [hlimit, hstop, hseen, if_false, dif_neg, or_self, not_false_eq_true]
        split <;> rename_i h <;> rw [h]

/-- What is visited is what a walk enters first, as far as the limit goes. -/
theorem visitParents_eq_take (limit : Nat) (seen queue : List String) :
    ∃ l, r.Walk Event.prevEvents (MayVisit stop minDepth) seen queue l ∧
      r.visitParents stop minDepth limit seen queue = l.take limit := by
  induction limit, seen, queue using visitParents.induct r stop minDepth with
  | case1 =>
    refine ⟨[], .done, ?_⟩
    rw [visitParents, List.take_nil]
  | case2 seen id queue =>
    obtain ⟨l, hl⟩ := exists_walk r Event.prevEvents (MayVisit stop minDepth) seen (id :: queue)
    refine ⟨l, hl, ?_⟩
    rw [visitParents_cons, if_pos rfl, List.take_zero]
  | case3 limit seen id queue hlimit hstop ih =>
    rw [visitParents_cons, if_neg hlimit, if_pos (.inl hstop)]
    obtain ⟨l, hl, htake⟩ := ih
    have hid : ∀ f, r.event? id = some f → ¬ MayVisit stop minDepth f :=
      fun f hf hm => hm.1 ((mem_of_event? hf).2 ▸ hstop)
    exact ⟨l, .bar hid (List.Subset.refl _) (List.subset_cons_self _ _) hl, htake⟩
  | case4 limit seen id queue hlimit hstop hseen ih =>
    rw [visitParents_cons, if_neg hlimit, if_pos (.inr hseen)]
    obtain ⟨l, hl, htake⟩ := ih
    exact ⟨l, .again hseen hl, htake⟩
  | case5 limit seen id queue hlimit hstop hseen hnone ih =>
    rw [visitParents_cons, if_neg hlimit, if_neg (not_or.mpr ⟨hstop, hseen⟩), hnone]
    obtain ⟨l, hl, htake⟩ := ih
    have hid : ∀ f, r.event? id = some f → ¬ MayVisit stop minDepth f := by
      intro f hf
      rw [hnone] at hf
      cases hf
    exact ⟨l, .bar hid (List.subset_cons_self _ _) (List.Subset.refl _) hl, htake⟩
  | case6 limit seen id queue hlimit hstop hseen f hf hlow ih =>
    rw [visitParents_cons, if_neg hlimit, if_neg (not_or.mpr ⟨hstop, hseen⟩), hf]
    simp only [if_pos hlow]
    obtain ⟨l, hl, htake⟩ := ih
    have hid : ∀ g, r.event? id = some g → ¬ MayVisit stop minDepth g := by
      intro g hg hm
      rw [hf] at hg
      cases hg
      exact Int.not_le.mpr hlow hm.2
    exact ⟨l, .bar hid (List.subset_cons_self _ _) (List.Subset.refl _) hl, htake⟩
  | case7 limit seen id queue hlimit hstop hseen f hf hdeep ih =>
    rw [visitParents_cons, if_neg hlimit, if_neg (not_or.mpr ⟨hstop, hseen⟩), hf]
    simp only [if_neg hdeep]
    obtain ⟨l, hl, htake⟩ := ih
    have hm : MayVisit stop minDepth f := ⟨(mem_of_event? hf).2 ▸ hstop, Int.not_lt.mp hdeep⟩
    refine ⟨f :: l, .enter hseen hf hm hl, ?_⟩
    obtain ⟨n, rfl⟩ := Nat.exists_eq_succ_of_ne_zero hlimit
    rw [htake, List.take_succ_cons, Nat.succ_sub_one]

end Visit

/-! ## Events between -/

/-- The event is one of these, or an ancestor of one. -/
def AtOrBehind (r : Room) (ids : List String) (e : Event) : Prop :=
  r.Reach Event.prevEvents (fun _ => True) ids e

/-- Parents lead from the latest events to this one over events that are deep enough and not among
the earliest. -/
def Between (r : Room) (earliest latest : List String) (minDepth : Int) (e : Event) : Prop :=
  r.Reach Event.prevEvents (MayVisit earliest minDepth)
    ((latest.filterMap r.event?).flatMap Event.prevEvents) e ∧ e.id ∉ latest

section Between

variable {r : Room} {earliest latest : List String} {minDepth : Int} {e : Event}

/-- The latest events lead to what stands in the queue first. -/
theorem closed_latest : r.Closed Event.prevEvents (MayVisit earliest minDepth) latest
    ((latest.filterMap r.event?).flatMap Event.prevEvents) := by
  intro id hid f hf _ p hp _ _ _
  exact .inr (List.mem_flatMap.mpr ⟨f, List.mem_filterMap.mpr ⟨id, hid, hf⟩, hp⟩)

/-- What is served is what a walk over the events between enters first, as far as the limit goes. -/
theorem eventsBetween_eq (r : Room) (earliest latest : List String) (limit : Nat) (minDepth : Int) :
    ∃ l, r.Walk Event.prevEvents (MayVisit earliest minDepth) latest
        ((latest.filterMap r.event?).flatMap Event.prevEvents) l ∧
      (∀ e, e ∈ l ↔ r.Between earliest latest minDepth e) ∧
      r.eventsBetween earliest latest limit minDepth = sortByDepth (l.take limit) := by
  obtain ⟨l, hl, htake⟩ := visitParents_eq_take limit latest
    ((latest.filterMap r.event?).flatMap Event.prevEvents)
  exact ⟨l, hl, fun e => hl.mem_iff closed_latest, congrArg sortByDepth htake⟩

theorem between_of_mem {limit : Nat} (h : e ∈ r.eventsBetween earliest latest limit minDepth) :
    r.Between earliest latest minDepth e := by
  obtain ⟨l, -, hmem, hserved⟩ := eventsBetween_eq r earliest latest limit minDepth
  rw [hserved] at h
  exact (hmem e).mp (List.mem_of_mem_take (mem_sortByDepth.mp h))

/-- Events between are found when the limit is no less than the number of recorded events. -/
theorem Between.mem {limit : Nat} (hl : r.events.length ≤ limit)
    (h : r.Between earliest latest minDepth e) :
    e ∈ r.eventsBetween earliest latest limit minDepth := by
  obtain ⟨l, hwalk, hmem, hserved⟩ := eventsBetween_eq r earliest latest limit minDepth
  have hlength : l.length ≤ limit :=
    Nat.le_trans hwalk.length_le (Nat.le_trans (List.length_filter_le _ _) hl)
  rw [hserved, List.take_of_length_le hlength]
  exact mem_sortByDepth.mpr ((hmem e).mpr h)

theorem nodup_eventsBetween (limit : Nat) :
    ((r.eventsBetween earliest latest limit minDepth).map Event.id).Nodup := by
  obtain ⟨l, hwalk, -, hserved⟩ := eventsBetween_eq r earliest latest limit minDepth
  rw [hserved, nodup_ids_sortByDepth]
  exact hwalk.nodup.sublist ((List.take_sublist limit l).map _)

theorem precedes_eventsBetween (limit : Nat) :
    (r.eventsBetween earliest latest limit minDepth).Pairwise Precedes :=
  pairwise_precedes (pairwise_sortByDepth _) (nodup_eventsBetween limit)

/-- As many events are served as there are between, or as the limit allows. -/
theorem length_eventsBetween (limit : Nat) :
    (r.eventsBetween earliest latest limit minDepth).length =
      min limit {e | r.Between earliest latest minDepth e}.ncard := by
  classical
  obtain ⟨l, hwalk, hmem, hserved⟩ := eventsBetween_eq r earliest latest limit minDepth
  have hall : {e | r.Between earliest latest minDepth e} = ↑l.toFinset := by
    ext e
    rw [Set.mem_ofPred_eq, ← hmem e, Finset.mem_coe, List.mem_toFinset]
  rw [hall, Set.ncard_coe_finset, List.toFinset_card_of_nodup hwalk.nodup.of_map, hserved,
    (sortByDepth_perm _).length_eq, List.length_take]

/-- What is served leaves no gaps: a latest event, or another one that is served, has it as a
parent. -/
theorem child_of_mem_eventsBetween {limit : Nat}
    (h : e ∈ r.eventsBetween earliest latest limit minDepth) :
    (∃ id ∈ latest, ∃ f, r.event? id = some f ∧ e.id ∈ f.prevEvents) ∨
      ∃ f ∈ r.eventsBetween earliest latest limit minDepth, f.id ≠ e.id ∧ e.id ∈ f.prevEvents := by
  obtain ⟨l, hwalk, -, hserved⟩ := eventsBetween_eq r earliest latest limit minDepth
  rw [hserved] at h ⊢
  obtain ⟨pre, post, htake⟩ := List.append_of_mem (mem_sortByDepth.mp h)
  have hl : l = pre ++ e :: (post ++ l.drop limit) := by
    rw [← List.cons_append, ← List.append_assoc, ← htake, List.take_append_drop]
  rcases hwalk.led hl with hqueued | ⟨f, hf, hparent⟩
  · obtain ⟨f, hf, hparent⟩ := List.mem_flatMap.mp hqueued
    obtain ⟨id, hid, hf⟩ := List.mem_filterMap.mp hf
    exact .inl ⟨id, hid, f, hf, hparent⟩
  · refine .inr ⟨f, mem_sortByDepth.mpr (htake ▸ List.mem_append_left _ hf), ?_, hparent⟩
    -- an event that was entered before is another one
    have hn := hwalk.nodup
    rw [hl, List.map_append, List.map_cons] at hn
    exact fun hid => (List.nodup_append.mp hn).2.2 _ (List.mem_map_of_mem hf) _
      List.mem_cons_self hid

end Between

/-- What is served is an exact walk under its bounds, whatever the room has recorded: events to
which no one leads, parents that are not recorded, and even events that are their own ancestors. No
event is served twice, and each one lies between the latest and the earliest events; as many are
served as lie there, or as the limit allows; they come in the order of depth and id; and each is a
parent of a latest event or of another one that is served. -/
theorem eventsBetween_exact (r : Room) (earliest latest : List String) (limit : Nat)
    (minDepth : Int) :
    let served := r.eventsBetween earliest latest limit minDepth
    (served.map Event.id).Nodup ∧
      (∀ e ∈ served, r.Between earliest latest minDepth e) ∧
      served.length = min limit {e | r.Between earliest latest minDepth e}.ncard ∧
      served.Pairwise Precedes ∧
      ∀ e ∈ served, (∃ id ∈ latest, ∃ f, r.event? id = some f ∧ e.id ∈ f.prevEvents) ∨
        ∃ f ∈ served, f.id ≠ e.id ∧ e.id ∈ f.prevEvents := by
  intro served
  refine ⟨nodup_eventsBetween limit, fun e => between_of_mem, length_eventsBetween limit,
    precedes_eventsBetween limit, fun e => child_of_mem_eventsBetween⟩

/-- When nothing is served at or behind the earliest events. No earliest event is served, whatever
the limit. No event behind one is served, whatever the limit, iff none is between: unless the event
is one of the latest itself, each way back to it from the latest events leads over an earliest event
or over one that is not deep enough. -/
theorem eventsBetween_behind_iff (r : Room) (earliest latest : List String) (minDepth : Int) :
    (∀ limit, ∀ e ∈ r.eventsBetween earliest latest limit minDepth, e.id ∉ earliest) ∧
      ((∀ limit, ∀ e ∈ r.eventsBetween earliest latest limit minDepth, ¬ r.AtOrBehind earliest e) ↔
        ∀ e, r.Between earliest latest minDepth e → ¬ r.AtOrBehind earliest e) := by
  constructor
  · intro limit e he
    exact (between_of_mem he).1.entered.1
  · constructor
    · intro h e he
      exact h r.events.length e (he.mem (Nat.le_refl _))
    · intro h limit e he
      exact h e (between_of_mem he)

/-! ### A fork that rejoins behind an earliest event -/

def forkRoot : Event := bare "!r:a" "$0" [] 1

def leftFork : Event := bare "!r:a" "$1" ["$0"] 2

def rightFork : Event := bare "!r:a" "$2" ["$0"] 2

def mergeOfForks : Event := bare "!r:a" "$3" ["$1", "$2"] 3

def rejoined : Room := (Room.new "!r:a" .default).afterAll
  [.add forkRoot, .fork leftFork, .fork rightFork, .fork mergeOfForks]

/-- The root is served though it is the parent of the earliest event: the walk comes to it over the
other fork. -/
theorem eventsBetween_rejoins_behind :
    forkRoot ∈ rejoined.eventsBetween [leftFork.id] [mergeOfForks.id] 10 0 ∧
      rejoined.event? leftFork.id = some leftFork ∧ forkRoot.id ∈ leftFork.prevEvents := by
  have hright : rejoined.Reach Event.prevEvents (MayVisit [leftFork.id] 0) ["$1", "$2"] rightFork :=
    .start (by decide : "$2" ∈ _) rfl (by decide)
  have hroot : rejoined.Reach Event.prevEvents (MayVisit [leftFork.id] 0) ["$1", "$2"] forkRoot :=
    .step hright (by decide : "$0" ∈ _) rfl (by decide)
  have hbetween : rejoined.Between [leftFork.id] [mergeOfForks.id] 0 forkRoot :=
    ⟨hroot, by decide⟩
  exact ⟨hbetween.mem (by decide), rfl, by decide⟩

end Homeserver.Room
