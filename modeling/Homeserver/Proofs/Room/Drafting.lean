/-
Which events authorise an event, and where they stand. An event cites the current state of the room
in which it is made, but its depth counts from its parents, which may be chosen far behind that
state. So what an event cites is recorded, but it is less deep only if the parents come up to it, as
they do for an event on top of the room. A chain of authorisations goes by depth, so it lists an
event behind what authorises it only as far as that holds.
-/
import Homeserver.Proofs.Room.AuthChain
import Homeserver.Proofs.Room.Creation

namespace Homeserver.Room

/-! ## Cited events -/

/-- What authorises an event is recorded. -/
def Cites (r : Room) (e : Event) : Prop := ∀ id ∈ e.authEvents, r.contains id = true

theorem Cites.append {r : Room} {e : Event} (h : r.Cites e) (f : Event) : (r.append f).Cites e :=
  fun id hid => (contains_append _ _ _).mpr (.inr (h id hid))

/-- What a room builds cites the events of its state, which are recorded. -/
theorem Settled.cites {r : Room} (hr : r.Settled) {origin : String} {now : Int} {t : EventTemplate}
    {parents : List String} {u : UnsignedEvent} (h : r.buildOn origin now t parents = .ok u)
    (s : Identity) : r.Cites (s.signEvent u) := by
  obtain ⟨-, -, depth, -, rfl⟩ := buildOn_ok.mp h
  intro id hid
  obtain ⟨place, -, hplace⟩ := List.mem_filterMap.mp (show id ∈ r.authorising t from hid)
  obtain ⟨f, hf, -⟩ := hr.placed place id hplace
  exact Option.isSome_iff_exists.mpr ⟨f, hf⟩

/-- One recorded event is less deep than another iff it is no deeper than some parent of that one. -/
theorem WellFormed.depth_lt_iff {r : Room} (hr : r.WellFormed) {e f : Event} (he : e ∈ r.events)
    (hf : f ∈ r.events) :
    f.depth < e.depth ↔ ∃ p ∈ e.prevEvents, ∃ g, r.event? p = some g ∧ f.depth ≤ g.depth := by
  have hdeep := hr.depth e he
  constructor
  · intro hlt
    -- nothing is less deep than a root
    have hne : e.prevEvents ≠ [] := by
      intro hroot
      have h₁ := hdeep.root hroot
      have h₂ := hr.one_le_depth f hf
      omega
    obtain ⟨g, hg, hparent, hdepth⟩ := hdeep.deepest hne
    exact ⟨g.id, hparent, g, hr.event?_of_mem hg, by omega⟩
  · rintro ⟨p, hp, g, hg, hle⟩
    obtain ⟨hmem, rfl⟩ := mem_of_event? hg
    have := hdeep.above g hmem hp
    omega

/-- What authorises an event on top of a room is less deep than the event. -/
theorem Settled.cited_lt {r next : Room} (hr : r.Settled) {s : Identity} {now : Int}
    {t : EventTemplate} {e : Event} (h : r.createAndAdd s now t = .ok (e, next)) {id : String}
    (hid : id ∈ e.authEvents) : ∃ f ∈ r.events, f.id = id ∧ f.depth < e.depth := by
  obtain ⟨⟨u, hu, rfl⟩, -⟩ := createAndAdd_ok h
  obtain ⟨f, hf⟩ := event?_isSome (hr.cites hu s id hid)
  obtain ⟨hmem, rfl⟩ := mem_of_event? hf
  refine ⟨f, hmem, rfl, ?_⟩
  have hdepth : (s.signEvent u).depth = r.depth + 1 := by
    obtain ⟨-, -, -, rfl⟩ := hr.build_iff.mp hu
    rfl
  have := hr.depth_le f hmem
  omega

/-! ## The order of a chain -/

/-- Each event of the list stands behind all that authorise it. -/
def AuthorisedFirst (l : List Event) : Prop :=
  ∀ pre e post, l = pre ++ e :: post → ∀ id ∈ e.authEvents, id ∈ pre.map Event.id

/-- A chain lists what authorises an event before it iff that precedes it. -/
theorem WellFormed.authorisedFirst_iff {r : Room} (hr : r.WellFormed)
    (hcites : ∀ e ∈ r.events, r.Cites e) (ids : List String) :
    AuthorisedFirst (r.authChain ids) ↔
      ∀ e ∈ r.authChain ids, ∀ f ∈ r.events, f.id ∈ e.authEvents → Precedes f e := by
  have hclosed : ∀ e ∈ r.authChain ids, ∀ f ∈ r.events, f.id ∈ e.authEvents →
      f ∈ r.authChain ids := by
    intro e he f hf hid
    exact mem_authChain_iff.mpr ((mem_authChain_iff.mp he).step hid (hr.event?_of_mem hf) trivial)
  have hordered := precedes_authChain r ids
  constructor
  · intro hfirst e he f hf hid
    obtain ⟨pre, post, hsplit⟩ := List.append_of_mem he
    obtain ⟨g, hg, hgid⟩ := List.mem_map.mp (hfirst pre e post hsplit f.id hid)
    have hmem : g ∈ r.authChain ids := hsplit ▸ List.mem_append_left _ hg
    obtain rfl : g = f := List.inj_on_of_nodup_map hr.nodup_ids (mem_authChain hmem) hf hgid
    exact (mem_before_iff_precedes hordered hsplit hmem).mp hg
  · intro hprecede pre e post hsplit id hid
    have he : e ∈ r.authChain ids := hsplit ▸ List.mem_append_right pre List.mem_cons_self
    obtain ⟨f, hf⟩ := event?_isSome (hcites e (mem_authChain he) id hid)
    obtain ⟨hmem, rfl⟩ := mem_of_event? hf
    exact List.mem_map_of_mem ((mem_before_iff_precedes hordered hsplit (hclosed e he f hmem hid)).mpr
      (hprecede e he f hmem hid))

/-! ## Growing by templates -/

/-- A room that grows by templates, and the events that are drafted for it. -/
structure Drafting where
  room : Room
  drafts : List Event

namespace Drafting

/-- What a server does to such a room: it creates an event on top of it, drafts one on parents of its
choice and signs it, or appends a draft as a fork, at once or later. -/
inductive Move where
  | create (s : Identity) (now : Int) (t : EventTemplate)
  | draft (s : Identity) (now : Int) (t : EventTemplate) (parents : List String)
  | fork (index : Nat)

/-- The template of which a move makes an event. -/
def Move.template? : Move → Option EventTemplate
  | .create _ _ t => some t
  | .draft _ _ t _ => some t
  | .fork _ => none

def start (roomId : String) (version : RoomVersion) : Drafting := ⟨Room.new roomId version, []⟩

/-- What comes of a move, which is nothing if it is refused. -/
def move (d : Drafting) : Move → Drafting
  | .create s now t => { d with room := d.room.after (.create s now t) }
  | .draft s now t parents =>
    match d.room.buildOn s.serverName now t parents with
    | .ok u => { d with drafts := d.drafts ++ [s.signEvent u] }
    | .error _ => d
  | .fork index =>
    match d.drafts[index]? with
    | some e => { d with room := d.room.after (.fork e) }
    | none => d

def run (d : Drafting) (moves : List Move) : Drafting := moves.foldl move d

theorem run_cons (d : Drafting) (m : Move) (moves : List Move) :
    d.run (m :: moves) = (d.move m).run moves := rfl

theorem run_append (d : Drafting) (moves moves' : List Move) :
    d.run (moves ++ moves') = (d.run moves).run moves' := List.foldl_append

theorem move_draft {d : Drafting} {s : Identity} {now : Int} {t : EventTemplate}
    {parents : List String} {u : UnsignedEvent}
    (h : d.room.buildOn s.serverName now t parents = .ok u) :
    d.move (.draft s now t parents) = ⟨d.room, d.drafts ++ [s.signEvent u]⟩ := by
  simp only [move, h]

theorem move_fork {d : Drafting} {index : Nat} {e : Event} (h : d.drafts[index]? = some e) :
    d.move (.fork index) = ⟨d.room.after (.fork e), d.drafts⟩ := by
  simp only [move, h]

/-- What authorises the recorded events and the drafts is recorded. -/
structure Cited (d : Drafting) : Prop where
  settled : d.room.Settled
  recorded : ∀ e ∈ d.room.events, d.room.Cites e
  drafted : ∀ e ∈ d.drafts, d.room.Cites e

theorem cited_start (roomId : String) (version : RoomVersion) : (start roomId version).Cited where
  settled := settled_new roomId version
  recorded := fun _ h => nomatch h
  drafted := fun _ h => nomatch h

section Cited

variable {d : Drafting} (h : d.Cited)

include h

theorem Cited.append {e : Event} (he : d.room.Appends e) (hcites : d.room.Cites e) :
    Cited { d with room := d.room.append e } where
  settled := h.settled.append he
  recorded := by
    intro f hf
    rw [events_append he.new] at hf
    rcases List.mem_append.mp hf with hf | hf
    · exact (h.recorded f hf).append e
    · exact List.mem_singleton.mp hf ▸ hcites.append e
  drafted := fun f hf => (h.drafted f hf).append e

theorem Cited.create (s : Identity) (now : Int) (t : EventTemplate) :
    (d.move (.create s now t)).Cited := by
  show Cited { d with room := d.room.after (.create s now t) }
  cases hmade : d.room.createAndAdd s now t with
  | error err =>
    rw [after_create_of_error hmade]
    exact h
  | ok made =>
    obtain ⟨e, next⟩ := made
    rw [after_create_of_ok hmade]
    obtain ⟨⟨u, hu, rfl⟩, hadd⟩ := createAndAdd_ok hmade
    obtain ⟨he, rfl⟩ := appends_of_addEvent h.settled.tips hadd
    exact h.append he (h.settled.cites hu s)

theorem Cited.draft (s : Identity) (now : Int) (t : EventTemplate) (parents : List String) :
    (d.move (.draft s now t parents)).Cited := by
  cases hu : d.room.buildOn s.serverName now t parents with
  | error err =>
    simp only [Drafting.move, hu]
    exact h
  | ok u =>
    rw [move_draft hu]
    refine ⟨h.settled, h.recorded, ?_⟩
    rw [List.forall_mem_append, List.forall_mem_singleton]
    exact ⟨h.drafted, h.settled.cites hu s⟩

/-- What is recorded stays recorded, so also a draft of which the room has grown since then cites
recorded events. -/
theorem Cited.fork (index : Nat) : (d.move (.fork index)).Cited := by
  cases hdraft : d.drafts[index]? with
  | none =>
    simp only [Drafting.move, hdraft]
    exact h
  | some e =>
    rw [move_fork hdraft]
    cases hadd : d.room.addForkEvent e with
    | error err =>
      rw [after_fork_of_error hadd]
      exact h
    | ok next =>
      rw [after_fork_of_ok hadd]
      obtain ⟨he, rfl⟩ := appends_of_addForkEvent hadd
      exact h.append he (h.drafted e (List.mem_of_getElem? hdraft))

theorem Cited.run (moves : List Move) : (d.run moves).Cited := by
  induction moves generalizing d with
  | nil => exact h
  | cons m moves ih =>
    refine ih ?_
    cases m with
    | create s now t => exact h.create s now t
    | draft s now t parents => exact h.draft s now t parents
    | fork index => exact h.fork index

end Cited

/-- Take a room that was grown by templates, on top and by forks on chosen parents. What authorises a
recorded event is recorded. It is less deep than the event iff it is no deeper than some parent of
the event, as it always is for an event that is created on top. And a chain of authorisations lists
each event behind all that authorise it iff each of these precedes it: it is less deep, or as deep
with an id that comes first. -/
theorem authorised_run (roomId : String) (version : RoomVersion) (moves : List Move) :
    let r := ((start roomId version).run moves).room
    (∀ e ∈ r.events, ∀ id ∈ e.authEvents, ∃ f ∈ r.events, f.id = id ∧
      (f.depth < e.depth ↔ ∃ p ∈ e.prevEvents, ∃ g, r.event? p = some g ∧ f.depth ≤ g.depth)) ∧
    (∀ s now t e next, r.createAndAdd s now t = .ok (e, next) →
      ∀ id ∈ e.authEvents, ∃ f ∈ r.events, f.id = id ∧ f.depth < e.depth) ∧
    ∀ ids, AuthorisedFirst (r.authChain ids) ↔
      ∀ e ∈ r.authChain ids, ∀ f ∈ r.events, f.id ∈ e.authEvents → Precedes f e := by
  intro r
  have h : ((start roomId version).run moves).Cited := (cited_start roomId version).run moves
  refine ⟨fun e he id hid => ?_, fun s now t e next hmade id hid => h.settled.cited_lt hmade hid,
    h.settled.authorisedFirst_iff h.recorded⟩
  obtain ⟨f, hf⟩ := event?_isSome (h.recorded e he id hid)
  obtain ⟨hmem, rfl⟩ := mem_of_event? hf
  exact ⟨f, hmem, rfl, h.settled.depth_lt_iff he hmem⟩

end Drafting

/-! ### A fork behind the state -/

def lateId : String := "$_EFpeN7nRs01pp_goS6LyeOjkDsv61LBgyhxYIKcdgw"

/-- A message on the creation, which the later power levels authorise. -/
def late : EventFields :=
  ⟨"!r:a", "@u:a", "m.room.message", none, .obj [], [creatingId], [creatingId, rankingId, joiningId],
    2, 1⟩

theorem made_late : made late = named lateId late :=
  made_eq "kwHyE3RQzFvLPe+uU1NaxmNxtwv4KHV7NJn0DYdpwnY"
    (contentHash_eq _ ▸ by decide +kernel) (eventId_eq _ _ ▸ by decide +kernel)

/-- Templates that make a room make it move by move. -/
theorem Drafting.run_create {s : Identity} {calls : List (Int × EventTemplate)} {d : Drafting}
    {made : List Event} {last : Room} (h : d.room.createEach s calls = .ok (made, last)) :
    d.run (calls.map fun c => .create s c.1 c.2) = { d with room := last } := by
  induction calls generalizing d made with
  | nil =>
    cases h
    rfl
  | cons c calls ih =>
    obtain ⟨⟨e, next⟩, hcreate, h⟩ := bind_ok.mp h
    obtain ⟨⟨rest, last'⟩, hrest, h⟩ := bind_ok.mp h
    cases h
    have hmove : d.move (.create s c.1 c.2) = { d with room := next } := by
      simp only [Drafting.move, after_create_of_ok hcreate]
    rw [List.map_cons, Drafting.run_cons, hmove, ih hrest]

/-- The moves of a server that starts a public room and then drafts and appends the message. -/
def lateMoves : List Drafting.Move :=
  (initialEvents .default "@u:a").map (.create maker 1) ++
    [.draft maker 1 (.message "m.room.message" "@u:a" (.obj [])) [creatingId], .fork 0]

theorem run_lateMoves : ((Drafting.start "!r:a" .default).run lateMoves).room =
    started.append (named lateId late) := by
  have hstarted : (Drafting.start "!r:a" .default).run
      ((initialEvents .default "@u:a").map (.create maker 1)) = ⟨started, []⟩ := by
    have hrun := Drafting.run_create (d := Drafting.start "!r:a" .default) createEach_started
    rw [List.map_map] at hrun
    exact hrun
  have hbuild : started.buildOn "a" 1 (.message "m.room.message" "@u:a" (.obj [])) [creatingId] =
      .ok ⟨.default, late, protoOf .default late "a"⟩ := rfl
  have hfork : started.after (.fork (named lateId late)) = started.append (named lateId late) :=
    after_fork_of_ok rfl
  have hdraft : (Drafting.mk started []).move
      (.draft maker 1 (.message "m.room.message" "@u:a" (.obj [])) [creatingId]) =
        ⟨started, [named lateId late]⟩ := by
    rw [← made_late]
    exact Drafting.move_draft (d := ⟨started, []⟩) (s := maker) hbuild
  rw [lateMoves, Drafting.run_append, hstarted, Drafting.run_cons, hdraft, Drafting.run_cons,
    Drafting.move_fork (e := named lateId late) rfl, hfork]
  rfl

/-- The message is less deep than the power levels that authorise it, and stands before them in its
chain. -/
theorem late_fork_unordered :
    (∀ m ∈ lateMoves, ∀ t, m.template? = some t → t.raw = false) ∧
    let r := ((Drafting.start "!r:a" .default).run lateMoves).room
    (∃ e ∈ r.events, ∃ f ∈ r.events, f.id ∈ e.authEvents ∧ ¬ f.depth < e.depth) ∧
      ¬ AuthorisedFirst (r.authChain [lateId]) := by
  refine ⟨by simp [lateMoves, initialEvents, Drafting.Move.template?, EventTemplate.state,
    EventTemplate.member, EventTemplate.message], ?_⟩
  intro r
  have hcited := (Drafting.cited_start "!r:a" .default).run lateMoves
  have hroom : r = started.append (named lateId late) := run_lateMoves
  have hlate : r.event? lateId = some (named lateId late) := by
    rw [hroom]
    rfl
  have hranking : named rankingId ranking ∈ r.events := by
    rw [hroom]
    exact (mem_of_event? (show (started.append (named lateId late)).event? rankingId =
      some (named rankingId ranking) from rfl)).1
  have hauth : (named rankingId ranking).id ∈ (named lateId late).authEvents := by decide
  have hdepth : ¬ (named rankingId ranking).depth < (named lateId late).depth := by decide
  refine ⟨⟨_, (mem_of_event? hlate).1, _, hranking, hauth, hdepth⟩, fun hfirst => ?_⟩
  have hchain : named lateId late ∈ r.authChain [lateId] :=
    mem_authChain_iff.mpr (.start (List.mem_singleton.mpr rfl) hlate trivial)
  have hprecedes := (hcited.settled.authorisedFirst_iff hcited.recorded _).mp hfirst _ hchain _
    hranking hauth
  rcases hprecedes with hlt | ⟨hsame, -⟩
  · exact hdepth hlt
  · exact absurd hsame (by decide)

end Homeserver.Room
