/-
Forward extremities and their children. An event that is appended takes the place of its parents, so
nothing that comes in later is the child of an extremity. In a room that grew from an empty one the
parents come first, and no extremity has a child at all. A room that was joined through another
server lacks parents of its events: one of them that comes in late is an extremity with children.

Which events those are can be read off the room as it was joined, so the law is stated for a whole
run: it holds iff each late parent, and the join if it has a child from the start, gets another
child in the run.

However a room came about, its forward extremities are recorded; so whatever may be appended on top
of them may as well be appended as a fork, with the same outcome.
-/
import Homeserver.Proofs.Room.Delivery
import Homeserver.Proofs.Room.RemoteJoin

namespace Homeserver.Room

/-! ## Extremities of a run -/

/-- What a room grew by are its new extremities, besides those that it had, but for the parents of
what it grew by. -/
theorem Grows.mem_tips {r s : Room} {l : List Event} (h : r.Grows l s) {id : String} :
    id ∈ s.forwardExtremities ↔
      (id ∈ r.forwardExtremities ∨ id ∈ l.map Event.id) ∧ ∀ e ∈ l, id ∉ e.prevEvents := by
  induction h with
  | refl => simp
  | @append l s e h' he ih =>
    -- parents are recorded before their children, so the new event has none yet
    have hold : ∀ f ∈ l, e.id ∉ f.prevEvents := fun f hf hp =>
      he.ne_of_contains (h'.parents hf hp) rfl
    have hself : e.id ∉ e.prevEvents := fun hp => he.ne_of_contains (he.parents _ hp) rfl
    rw [mem_extremities_append, ih]
    simp only [List.map_append, List.map_cons, List.map_nil, List.mem_append, List.mem_singleton,
      or_imp, forall_and, forall_eq]
    constructor
    · rintro (rfl | ⟨⟨hid, hl⟩, hp⟩)
      · exact ⟨.inr (.inr rfl), hold, hself⟩
      · exact ⟨hid.imp_right .inl, hl, hp⟩
    · rintro ⟨hid | hid | rfl, hl, hp⟩
      · exact .inr ⟨⟨.inl hid, hl⟩, hp⟩
      · exact .inr ⟨⟨.inr hid, hl⟩, hp⟩
      · exact .inl rfl

/-- No recorded event has a forward extremity as a parent. -/
def Childless (r : Room) : Prop :=
  ∀ id ∈ r.forwardExtremities, ∀ e ∈ r.events, id ∉ e.prevEvents

theorem Grows.childless_iff {r s : Room} {l : List Event} (h : r.Grows l s) : s.Childless ↔
    ∀ e ∈ r.events, ∀ p ∈ e.prevEvents, p ∈ r.forwardExtremities ∨ p ∈ l.map Event.id →
      ∃ f ∈ l, p ∈ f.prevEvents := by
  unfold Childless
  rw [h.events_eq]
  constructor
  · intro hs e he p hp hid
    by_contra hno
    have htip : p ∈ s.forwardExtremities :=
      h.mem_tips.mpr ⟨hid, fun f hf hpf => hno ⟨f, hf, hpf⟩⟩
    exact hs p htip e (List.mem_append_left _ he) hp
  · intro hr id hid e he hp
    obtain ⟨hknown, hnone⟩ := h.mem_tips.mp hid
    rcases List.mem_append.mp he with he | he
    · obtain ⟨f, hf, hpf⟩ := hr e he id hp hknown
      exact hnone f hf hpf
    · exact hnone e he hp

/-! ## Rooms as they are first known -/

/-- A room as a server first knows it: empty, or joined through another server. -/
inductive Origin : Room → Prop
  | new (roomId : String) (version : RoomVersion) : Origin (Room.new roomId version)
  | joined {version : RoomVersion} {roomId : String} {state chain : List Event} {join : Event}
      {r : Room} : ofRemoteJoin version roomId state chain join = .ok r → Origin r

theorem Origin.anchored {r : Room} (h : r.Origin) : r.Anchored := by
  cases h with
  | new roomId version => exact (consistent_new roomId version).tips
  | joined h =>
    intro id hid
    rw [(ofRemoteJoin_ok h).1, List.mem_singleton] at hid
    rw [hid, contains_join h]

/-- When the forward extremities have no recorded children, after any run of calls on a room that is
empty or was joined through another server. The room grows by the events that the run appends. The
law holds iff each parent of an event that was there from the start has another child in the run, if
it is an extremity from the start or one of the events that come in. A room that starts empty meets
this, as there is no such parent. -/
theorem childless_afterAll_iff {r : Room} (h : r.Origin) (calls : List Call) :
    ∃ appended, (r.afterAll calls).events = r.events ++ appended ∧
      ((r.afterAll calls).Childless ↔
        ∀ e ∈ r.events, ∀ p ∈ e.prevEvents,
          p ∈ r.forwardExtremities ∨ p ∈ appended.map Event.id → ∃ f ∈ appended, p ∈ f.prevEvents) := by
  obtain ⟨l, hl⟩ := grows_afterAll h.anchored calls
  exact ⟨l, hl.events_eq, hl.childless_iff⟩

/-! ### A join whose parent comes late -/

def creationSeed : Event :=
  ⟨"$0", .default, ⟨"!r:a", "", "m.room.create", some "", .obj [], [], [], 1, 0⟩, .null⟩

/-- The parent of the join, which the state does not hold. -/
def lateParent : Event := bare "!r:a" "$1" ["$0"] 2

def earlyJoin : Event := bare "!r:a" "$2" ["$1"] 3

def mergeOfLate : Event := bare "!r:a" "$3" ["$1", "$2"] 4

/-- The room that is joined without the parent of the join. -/
def lackingRoom : Room :=
  ⟨"!r:a", .default, [creationSeed, earlyJoin], ["$0", "$2"], [("$2", ())], [(.create, "$0")], 3⟩

theorem ofRemoteJoin_lackingRoom :
    ofRemoteJoin .default "!r:a" [creationSeed] [] earlyJoin = .ok lackingRoom := by
  unfold ofRemoteJoin seeded
  rw [seeds_one]
  rfl

/-- Once the join and its late parent are merged, no extremity has a child. -/
theorem childless_afterAll_of_merge :
    lackingRoom.Origin ∧ (lackingRoom.afterAll [.fork lateParent, .add mergeOfLate]).Childless := by
  have horigin : lackingRoom.Origin := .joined ofRemoteJoin_lackingRoom
  refine ⟨horigin, ?_⟩
  obtain ⟨appended, hevents, hiff⟩ :=
    childless_afterAll_iff horigin [.fork lateParent, .add mergeOfLate]
  have happended : appended = [lateParent, mergeOfLate] :=
    (List.append_cancel_left (show lackingRoom.events ++ _ = _ from hevents)).symm
  rw [hiff, happended]
  decide

/-- The late parent is taken as a fork, and is then an extremity with the join as its child. -/
theorem late_parent_is_tip :
    ∃ r s, ofRemoteJoin .default "!r:a" [creationSeed] [] earlyJoin = .ok r ∧
      r.addForkEvent lateParent = .ok s ∧
      lateParent.id ∈ s.forwardExtremities ∧
      ∃ e ∈ s.events, lateParent.id ∈ e.prevEvents := by
  refine ⟨lackingRoom, lackingRoom.append lateParent, ofRemoteJoin_lackingRoom, rfl, by decide,
    earlyJoin, ?_, by decide⟩
  rw [events_append rfl]
  exact List.mem_append_left _ (List.mem_cons_of_mem _ List.mem_cons_self)

/-! ## On top of extremities or as a fork -/

/-- Appending on top of extremities is appending as a fork, with one check more. -/
theorem Anchored.addEvent_iff {r s : Room} {e : Event} (h : r.Anchored) : r.addEvent e = .ok s ↔
    r.addForkEvent e = .ok s ∧ ∀ p ∈ e.prevEvents, p ∈ r.forwardExtremities := by
  rw [addEvent_ok, addForkEvent_ok]
  constructor
  · rintro ⟨hfits, htips, hs⟩
    exact ⟨⟨hfits, fun p hp => h p (htips p hp), hs⟩, htips⟩
  · rintro ⟨⟨hfits, -, hs⟩, htips⟩
    exact ⟨hfits, htips, hs⟩

/-- In every room that a server gets to have, an event is appended on top of forward extremities iff
it is appended as a fork and its parents are forward extremities. Either call leaves the same room,
and a call that is refused leaves the room as it is. -/
theorem addEvent_refines_addForkEvent {first r : Room} (h : first.Origin) (calls : List Call)
    (hr : first.afterAll calls = r) (e : Event) :
    ((∃ s, r.addEvent e = .ok s) ↔
      (∃ s, r.addForkEvent e = .ok s) ∧ ∀ p ∈ e.prevEvents, p ∈ r.forwardExtremities) ∧
    (∀ s t, r.addEvent e = .ok s → r.addForkEvent e = .ok t →
      s = t ∧ r.after (.add e) = s ∧ r.after (.fork e) = s) ∧
    (∀ err, r.addEvent e = .error err → r.after (.add e) = r) ∧
    (∀ err, r.addForkEvent e = .error err → r.after (.fork e) = r) := by
  have hanchored : r.Anchored := by
    obtain ⟨l, hl⟩ := grows_afterAll h.anchored calls
    exact hr ▸ hl.anchored h.anchored
  refine ⟨?_, fun s t hs ht => ?_, fun _ => after_add_of_error, fun _ => after_fork_of_error⟩
  · rw [← exists_and_right]
    exact exists_congr fun s => hanchored.addEvent_iff
  · have hfork := (hanchored.addEvent_iff.mp hs).1
    exact ⟨Except.ok.inj (hfork.symm.trans ht), after_add_of_ok hs, after_fork_of_ok hfork⟩

/-- The merge of the join and its late parent is appended either way, to the same room. -/
theorem mergeOfLate_refines :
    lackingRoom.Origin ∧ (lackingRoom.afterAll [.fork lateParent]).after (.add mergeOfLate) =
      (lackingRoom.afterAll [.fork lateParent]).after (.fork mergeOfLate) := by
  have horigin : lackingRoom.Origin := .joined ofRemoteJoin_lackingRoom
  obtain ⟨-, hsame, -, -⟩ :=
    addEvent_refines_addForkEvent horigin [.fork lateParent] rfl mergeOfLate
  obtain ⟨-, hadd, hfork⟩ := hsame _ _ rfl rfl
  exact ⟨horigin, hadd.trans hfork.symm⟩

end Homeserver.Room
