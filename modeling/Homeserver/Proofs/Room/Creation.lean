/-
The creation of rooms. A room that a server creates starts with the create event of its templates,
and the room builds no other one itself. Of the events that it is given, however, it asks nothing
about their type: another create event that follows its extremities is taken as any event is, and
then stands in the state in place of the first one.
-/
import Homeserver.Proofs.Event.Proposal
import Homeserver.Proofs.Room.State

namespace Homeserver.Room

/-! ## Growing by templates and by events -/

/-- A room to which the events of templates are added grows by one event for each, of its type and
with its state key. -/
theorem grows_createEach {s : Identity} {calls : List (Int × EventTemplate)} {made : List Event}
    {r last : Room} (hr : r.Anchored) (h : r.createEach s calls = .ok (made, last)) :
    r.Grows made last ∧
      made.map (fun e => (e.type, e.stateKey)) = calls.map (fun c => (c.2.type, c.2.stateKey)) := by
  induction calls generalizing r made with
  | nil =>
    cases h
    exact ⟨.refl, rfl⟩
  | cons c calls ih =>
    obtain ⟨⟨e, next⟩, hcreate, h⟩ := bind_ok.mp h
    obtain ⟨⟨rest, last'⟩, hrest, h⟩ := bind_ok.mp h
    cases h
    obtain ⟨⟨u, hu, rfl⟩, hadd⟩ := createAndAdd_ok hcreate
    obtain ⟨he, rfl⟩ := appends_of_addEvent hr hadd
    obtain ⟨hl, hkinds⟩ := ih (hr.append _) hrest
    obtain ⟨-, -, depth, -, rfl⟩ := build_ok.mp hu
    refine ⟨Grows.trans (.append .refl he) hl, ?_⟩
    rw [List.map_cons, List.map_cons, hkinds]
    rfl

/-- A room to which events are given one after the other grows by those that it takes. -/
theorem grows_adds {r : Room} (hr : r.Anchored) (given : List Event) :
    ∃ taken, taken.Sublist given ∧ r.Grows taken (r.afterAll (given.map .add)) := by
  induction given generalizing r with
  | nil => exact ⟨[], .slnil, .refl⟩
  | cons e given ih =>
    show ∃ taken, _ ∧ r.Grows taken ((r.after (.add e)).afterAll _)
    cases hadd : r.addEvent e with
    | error err =>
      have hafter : r.after (.add e) = r := after_add_of_error hadd
      obtain ⟨taken, hsub, hgrows⟩ := ih hr
      rw [hafter]
      exact ⟨taken, hsub.cons e, hgrows⟩
    | ok next =>
      obtain ⟨he, rfl⟩ := appends_of_addEvent hr hadd
      have hafter : r.after (.add e) = r.append e := after_add_of_ok hadd
      obtain ⟨taken, hsub, hgrows⟩ := ih (hr.append e)
      rw [hafter]
      exact ⟨e :: taken, hsub.cons_cons e, Grows.trans (.append .refl he) hgrows⟩

/-- A place of the state holds what it held, or an event by which the room grew and that sets it. -/
theorem Grows.find?_state {r s : Room} {l : List Event} (h : r.Grows l s) (place : StateKey) :
    (Table.find? place s.state = Table.find? place r.state ∧ ∀ e ∈ l, e.place? ≠ some place) ∨
      ∃ e ∈ l, e.place? = some place ∧ Table.find? place s.state = some e.id := by
  induction h with
  | refl => exact .inl ⟨rfl, fun _ h => nomatch h⟩
  | @append l s e _ he ih =>
    rw [find?_state_append]
    by_cases hp : e.place? = some place
    · rw [if_pos hp]
      exact .inr ⟨e, by simp, hp, rfl⟩
    · rw [if_neg hp]
      rcases ih with ⟨hold, hnone⟩ | ⟨f, hf, hfp, hfind⟩
      · left
        refine ⟨hold, fun f hf => ?_⟩
        rcases List.mem_append.mp hf with hf | hf
        · exact hnone f hf
        · exact List.mem_singleton.mp hf ▸ hp
      · exact .inr ⟨f, List.mem_append_left _ hf, hfp, hfind⟩

/-- A place that a recorded event has set keeps its event iff no event by which the room grew sets it. -/
theorem Grows.keeps_place_iff {r s : Room} {l : List Event} (h : r.Grows l s) (hr : r.Settled)
    {place : StateKey} {id : String} (hid : Table.find? place r.state = some id) :
    Table.find? place s.state = some id ↔ ∀ e ∈ l, e.place? ≠ some place := by
  rcases h.find?_state place with ⟨hsame, hnone⟩ | ⟨e, he, hep, hfind⟩
  · rw [hsame, hid]
    exact ⟨fun _ => hnone, fun _ => rfl⟩
  · constructor
    · intro hkept
      -- the event that was recorded before cannot have the id of the new one
      obtain ⟨f, hf, -⟩ := hr.placed place id hid
      have hnew := h.new he
      rw [hfind] at hkept
      rw [Option.some.inj hkept, contains, hf] at hnew
      cases hnew
    · intro hnone
      exact absurd hep (hnone e he)

/-! ## The first event -/

/-- The first event of a room: a creation without parents. -/
structure Starts (r : Room) (first : Event) : Prop where
  head : r.timeline.head? = some first.id
  recorded : r.event? first.id = some first
  creation : first.type = "m.room.create"
  parents : first.prevEvents = []
  depth : first.depth = 1

theorem WellFormed.starts {r : Room} (hr : r.WellFormed) {first : Event} {l : List Event}
    (h : r.events = first :: l) (htype : first.type = "m.room.create") : r.Starts first := by
  have hm : first ∈ r.events := h ▸ List.mem_cons_self
  have hparents : first.prevEvents = [] := (hr.root [] first l h).mpr rfl
  constructor
  case head => rw [hr.recorded, h]; rfl
  case recorded => exact hr.event?_of_mem hm
  case creation => exact htype
  case parents => exact hparents
  case depth => exact (hr.depth first hm).root hparents

/-- A created room starts with the create event among those of the templates, which is the only one
and stands in the state. -/
theorem create_initialEvents {s : Identity} {clock : Nat → Int} {version : RoomVersion}
    {creator roomId : String} {r : Room}
    (h : create s clock version.id roomId (initialEvents version creator) = .ok r) :
    r.Settled ∧ ∃ first l, r.events = first :: l ∧ first.type = "m.room.create" ∧
      (∀ e ∈ l, e.type ≠ "m.room.create") ∧ Table.find? .create r.state = some first.id := by
  unfold create at h
  obtain ⟨v, hv, h⟩ := bind_ok.mp h
  rw [RoomVersion.ofId_id] at hv
  cases hv
  obtain ⟨⟨l, last⟩, hmade, h⟩ := bind_ok.mp h
  cases h
  obtain ⟨hl, hkinds⟩ := grows_createEach (consistent_new roomId version).tips hmade
  have hkinds : l.map (fun e => (e.type, e.stateKey)) = ("m.room.create", some "") ::
      [("m.room.member", some creator), ("m.room.power_levels", some ""),
        ("m.room.join_rules", some "")] := hkinds
  obtain ⟨first, l, rfl, hfirst, hrest⟩ := List.map_eq_cons_iff.mp hkinds
  obtain ⟨htype, hkey⟩ := Prod.mk.inj hfirst
  have hothers : ∀ e ∈ l, e.type ≠ "m.room.create" := by
    intro e he hcreate
    have hm := List.mem_map_of_mem (f := fun e : Event => (e.type, e.stateKey)) he
    rw [hrest, hcreate] at hm
    simp at hm
  refine ⟨hl.settled (settled_new roomId version), first, l, hl.events_eq, htype, hothers, ?_⟩
  rcases hl.find?_state .create with ⟨-, hnone⟩ | ⟨e, he, hplace, hfind⟩
  · refine absurd ?_ (hnone first List.mem_cons_self)
    unfold Event.place?
    rw [hkey, htype]
    rfl
  · rcases List.mem_cons.mp he with rfl | he
    · exact hfind
    · exact absurd (Event.type_of_place? hplace) (hothers e he)

/-- When a created room keeps to one create event, whatever events are given to it. It grows by
those that it takes, and always starts with the create event of its creation. It records no other
one iff none is among those, and the state keeps naming the first one iff none of those sets its
place. -/
theorem single_creation_iff {s : Identity} {clock : Nat → Int} {version : RoomVersion}
    {creator roomId : String} {r : Room}
    (h : create s clock version.id roomId (initialEvents version creator) = .ok r)
    (given : List Event) :
    let next := r.afterAll (given.map .add)
    ∃ first taken, taken.Sublist given ∧ next.events = r.events ++ taken ∧ next.Starts first ∧
      (next.events.countP (fun e => e.type = "m.room.create") ≤ 1 ↔
        ∀ e ∈ taken, e.type ≠ "m.room.create") ∧
      Table.find? .create r.state = some first.id ∧
      (Table.find? .create next.state = some first.id ↔ ∀ e ∈ taken, e.place? ≠ some .create) := by
  intro next
  obtain ⟨hr, first, l, hevents, htype, hothers, hnamed⟩ := create_initialEvents h
  obtain ⟨taken, hsub, hgrows⟩ := grows_adds hr.tips given
  have hnext : next.events = first :: (l ++ taken) := by
    rw [hgrows.events_eq, hevents, List.cons_append]
  refine ⟨first, taken, hsub, hgrows.events_eq, (hgrows.settled hr).toWellFormed.starts hnext htype, ?_, hnamed,
    hgrows.keeps_place_iff hr hnamed⟩
  have hl : l.countP (fun e => e.type = "m.room.create") = 0 :=
    List.countP_eq_zero.mpr fun e he => by simpa using hothers e he
  have hone : ∀ n, n + 1 ≤ 1 ↔ n = 0 := by omega
  rw [hnext, List.countP_cons_of_pos (by simpa using htype), List.countP_append, hl, Nat.zero_add,
    hone, List.countP_eq_zero]
  simp only [decide_eq_true_eq]

/-! ### A second create event -/

def maker : Identity := ⟨"a", "ed25519:1", ⟨List.replicate 32 1⟩⟩

/-- An event as the maker signs it. -/
def made (f : EventFields) : Event := maker.signEvent ⟨.default, f, protoOf .default f "a"⟩

/-- The same event with its id written out. -/
def named (id : String) (f : EventFields) : Event := ⟨id, .default, f, (made f).json⟩

def creatingId : String := "$k0ioEw4Lm67Nk_2RBeWYCyKC6S2vtjH1bXFqxWLrkXA"
def joiningId : String := "$jkTaYoEM90sgojkxfx-m03zjnJqz6TQHHpbj7rUapHc"
def rankingId : String := "$f6NCf2-nDrMUefGopumsnFSkrZNBP8n7elWXXTkZMtI"
def openingId : String := "$T1LBEK3Yco-YYKAoZATVbkg4-INSNjA7X9mmPBA_jIQ"
def recreatingId : String := "$uV5ViJlS8g0MhAbHAyzRPDflawJHHry_PXsSnJO3Owk"

def creating : EventFields :=
  ⟨"!r:a", "@u:a", "m.room.create", some "",
    .obj [("creator", .str "@u:a"), ("room_version", .str "10")], [], [], 1, 1⟩

def joining : EventFields :=
  ⟨"!r:a", "@u:a", "m.room.member", some "@u:a", .obj [("membership", .str "join")], [creatingId],
    [creatingId], 2, 1⟩

def ranking : EventFields :=
  ⟨"!r:a", "@u:a", "m.room.power_levels", some "",
    .obj [("ban", .int 50), ("events_default", .int 0), ("invite", .int 0), ("kick", .int 50),
      ("redact", .int 50), ("state_default", .int 50), ("users", .obj [("@u:a", .int 100)]),
      ("users_default", .int 0)],
    [joiningId], [creatingId, joiningId], 3, 1⟩

def opening : EventFields :=
  ⟨"!r:a", "@u:a", "m.room.join_rules", some "", .obj [("join_rule", .str "public")],
    [rankingId], [creatingId, rankingId, joiningId], 4, 1⟩

def recreating : EventFields :=
  ⟨"!r:a", "@u:a", "m.room.create", some "", .obj [], [openingId], [], 5, 1⟩

/-- The room with these events, of which each follows those before it. -/
def grown (l : List Event) : Room := l.foldl append (Room.new "!r:a" .default)

/-- The room with its first events. -/
def started : Room := grown [named creatingId creating, named joiningId joining,
  named rankingId ranking, named openingId opening]

theorem made_eq {f : EventFields} {id : String} (hash : String)
    (hhash : contentHash (.obj (protoOf .default f "a")) = hash)
    (hid : eventId .default (.obj (Table.insert "hashes" (.obj [("sha256", .str hash)])
      (protoOf .default f "a"))) = id) : made f = named id f := by
  have hmade := Identity.id_signEvent (u := ⟨.default, f, protoOf .default f "a"⟩)
    (sorted_protoOf .default f "a") maker hhash
  rw [hid] at hmade
  rw [named, ← hmade]
  rfl

-- each id is evaluated with the value of the content hash

theorem made_creating : made creating = named creatingId creating :=
  made_eq "7mhmBJzo3rzlIxic3NoPy1lpapEjUmMlhh9zO9nVVS8"
    (contentHash_eq _ ▸ by decide +kernel) (eventId_eq _ _ ▸ by decide +kernel)

theorem made_joining : made joining = named joiningId joining :=
  made_eq "ue8jqmYcokUmg8y6QunHwU8mAf8njVilzQQFyaS5Xk8"
    (contentHash_eq _ ▸ by decide +kernel) (eventId_eq _ _ ▸ by decide +kernel)

theorem made_ranking : made ranking = named rankingId ranking :=
  made_eq "9evYBGhMErmtcujpYsiH9lH32yflP0VhZJNYHgdoDwM"
    (contentHash_eq _ ▸ by decide +kernel) (eventId_eq _ _ ▸ by decide +kernel)

theorem made_opening : made opening = named openingId opening :=
  made_eq "IYr90/qyLPhDVlCbSn/ooDaVVPhm3rjEJ0wmWwKZURk"
    (contentHash_eq _ ▸ by decide +kernel) (eventId_eq _ _ ▸ by decide +kernel)

theorem made_recreating : made recreating = named recreatingId recreating :=
  made_eq "dXy6aek1kSC84Bk3Iqnegf2ALbTXQwdkwv1E3VwWi4c"
    (contentHash_eq _ ▸ by decide +kernel) (eventId_eq _ _ ▸ by decide +kernel)

theorem createEach_cons {r last : Room} {t : EventTemplate} {calls : List (Int × EventTemplate)}
    {events : List Event} {f : EventFields} {id : String} (hmade : made f = named id f)
    (hbuild : r.build "a" 1 t = .ok ⟨.default, f, protoOf .default f "a"⟩)
    (hadd : r.addEvent (named id f) = .ok (r.append (named id f)))
    (h : (r.append (named id f)).createEach maker calls = .ok (events, last)) :
    r.createEach maker ((1, t) :: calls) = .ok (named id f :: events, last) := by
  have hcreate : r.createAndAdd maker 1 t = .ok (named id f, r.append (named id f)) := by
    refine bind_ok.mpr ⟨_, hbuild, ?_⟩
    show (do let next ← r.addEvent (made f); return (made f, next)) = _
    rw [hmade, hadd]
    rfl
  exact bind_ok.mpr ⟨_, hcreate, bind_ok.mpr ⟨_, h, rfl⟩⟩

theorem createEach_started : (Room.new "!r:a" .default).createEach maker
    ((initialEvents .default "@u:a").map fun t => (1, t)) = .ok (started.events, started) :=
  createEach_cons made_creating rfl rfl (createEach_cons made_joining rfl rfl
    (createEach_cons made_ranking rfl rfl (createEach_cons made_opening rfl rfl rfl)))

theorem create_started : create maker (fun _ => 1) RoomVersion.default.id "!r:a"
    (initialEvents .default "@u:a") = .ok started :=
  bind_ok.mpr ⟨.default, rfl, bind_ok.mpr ⟨_, createEach_started, rfl⟩⟩

/-- A create event without parents, under another id. -/
def secondRoot : Event := { named creatingId creating with id := recreatingId }

/-- It is refused, and the room keeps to its create event. -/
theorem single_creation_of_refused :
    create maker (fun _ => 1) RoomVersion.default.id "!r:a" (initialEvents .default "@u:a") =
        .ok started ∧
      (started.afterAll [.add secondRoot]).events.countP (fun e => e.type = "m.room.create") ≤ 1 ∧
      Table.find? .create (started.afterAll [.add secondRoot]).state = some creatingId := by
  refine ⟨create_started, ?_⟩
  obtain ⟨first, taken, -, hevents, -, hcount, hold, hnew⟩ :=
    single_creation_iff create_started [secondRoot]
  have hsame : started.afterAll [.add secondRoot] = started := rfl
  have hnone : taken = [] := List.self_eq_append_right.mp (hsame ▸ hevents)
  have hfirst : first.id = creatingId := (Option.some.inj hold).symm
  subst hnone
  exact ⟨hcount.mpr fun _ h => (nomatch h), hfirst ▸ hnew.mpr fun _ h => (nomatch h)⟩

/-- A create event on the extremity of the room is an event as servers exchange it, and is taken:
there are two create events then, and the state names the second one. -/
theorem second_creation_taken :
    ∃ r next e, create maker (fun _ => 1) RoomVersion.default.id "!r:a"
        (initialEvents .default "@u:a") = .ok r ∧
      Event.ofPdu r.version e.json = .ok e ∧ r.addEvent e = .ok next ∧
      next.events.countP (fun e => e.type = "m.room.create") = 2 ∧
      Table.find? .create next.state ≠ Table.find? .create r.state := by
  have htime : Json.Safe recreating.timestamp := ⟨by decide, by decide⟩
  have hdepth : Json.Safe recreating.depth := ⟨by decide, by decide⟩
  have hcontent : recreating.content.Strict :=
    show (Json.obj []).Strict from Json.strict_obj.mpr fun _ h => (nomatch h)
  have hparse : Event.ofPdu .default (made recreating).json = .ok (made recreating) :=
    Event.ofPdu_signEvent (u := ⟨.default, recreating, protoOf .default recreating "a"⟩)
      (read_protoOf rfl hdepth htime .default "a")
      (fun _ => strict_protoOf hcontent hdepth htime .default "a") maker
  refine ⟨started, started.append (named recreatingId recreating), made recreating, create_started,
    hparse, ?_, ?_, ?_⟩
  · rw [made_recreating]
    rfl
  · rw [events_append rfl]
    rfl
  · rw [find?_state_append]
    decide

end Homeserver.Room
