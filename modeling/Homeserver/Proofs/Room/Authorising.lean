/-
What a built event cites. The rules of a version say by which places of the state an event of a
template is authorised (`AuthorisedBy`); the event cites what these places hold in the room, each
place once, and no two places hold one event. So it cites different events, and unless it creates the
room the creation comes first.
-/
import Homeserver.Proofs.Json.Path
import Homeserver.Proofs.Room.Creation

namespace Homeserver

/-! ## What the rules ask for -/

namespace EventTemplate

/-- The template is of a membership event that sets this membership. -/
def Sets (t : EventTemplate) (membership : String) : Prop :=
  t.type = "m.room.member" ∧ t.content.get? "membership" = some (.str membership)

/-- The places of the state by which an event of a template is authorised: the creation, the power
levels and the sender's membership, unless the event creates the room; for a membership also that of
the user it is about, the join rule if it lets the user in, the invite by a third party if it makes
use of one, and the membership of the user who lets another one into a restricted room. -/
inductive AuthorisedBy (version : RoomVersion) (t : EventTemplate) : StateKey → Prop
  | create (ht : t.type ≠ "m.room.create") : AuthorisedBy version t .create
  | powerLevels (ht : t.type ≠ "m.room.create") : AuthorisedBy version t .powerLevels
  | sender (ht : t.type ≠ "m.room.create") : AuthorisedBy version t (.member t.sender)
  | target {user : String} (ht : t.type = "m.room.member") (hu : t.stateKey = some user) :
      AuthorisedBy version t (.member user)
  | joinRules {membership : String} (ht : t.Sets membership)
      (hm : membership = "join" ∨ membership = "invite" ∨
        membership = "knock" ∧ version.knocking = true) : AuthorisedBy version t .joinRules
  | thirdPartyInvite {token : String} (ht : t.Sets "invite")
      (hs : t.content.walk? ["third_party_invite", "signed", "token"] = some (.str token)) :
      AuthorisedBy version t (.thirdPartyInvite token)
  | authorisingUser {user : String} (ht : t.Sets "join") (hv : version.restrictedJoins = true)
      (hu : t.content.get? "join_authorised_via_users_server" = some (.str user)) :
      AuthorisedBy version t (.member user)

end EventTemplate

namespace Authorisation

/-! ## The list of places -/

theorem mem_firstOfEach {α : Type} [DecidableEq α] {a : α} {l : List α} :
    a ∈ firstOfEach l ↔ a ∈ l := by
  induction l with
  | nil => exact Iff.rfl
  | cons b l ih =>
    rw [firstOfEach, List.mem_cons, List.mem_cons, List.mem_filter, ih]
    by_cases h : a = b <;> simp [h]

theorem nodup_firstOfEach {α : Type} [DecidableEq α] (l : List α) : (firstOfEach l).Nodup := by
  induction l with
  | nil => exact List.nodup_nil
  | cons b l ih =>
    rw [firstOfEach, List.nodup_cons]
    exact ⟨fun h => by simp at h, ih.filter _⟩

/-- The list of places is made from the membership that the content names, or from the empty text. -/
theorem sets_iff {t : EventTemplate} {membership : String} (ht : t.type = "m.room.member")
    (hne : membership ≠ "") :
    ((t.content.get? "membership").bind Json.string?).getD "" = membership ↔ t.Sets membership := by
  rw [EventTemplate.Sets, and_iff_right ht, ← Json.bind_string?_eq_some]
  cases (t.content.get? "membership").bind Json.string? with
  | none => simp [Ne.symm hne]
  | some m => simp

theorem authorisedBy_of_mem {version : RoomVersion} {t : EventTemplate} {place : StateKey}
    (ht : t.type = "m.room.member") (h : place ∈ ofMembership version t.stateKey t.content) :
    t.AuthorisedBy version place := by
  simp only [ofMembership, List.mem_append, List.mem_ite_nil_right, List.mem_map, Option.mem_toList,
    List.mem_singleton, textAt, Json.bind_string?_eq_some] at h
  rcases h with ((⟨user, hu, rfl⟩ | ⟨hm, rfl⟩) | ⟨hm, token, hs, rfl⟩) | ⟨⟨hm, hv⟩, user, hu, rfl⟩
  · exact .target ht hu
  · rcases hm with hm | hm | ⟨hm, hv⟩
    · exact .joinRules ((sets_iff ht (by decide)).mp hm) (.inl rfl)
    · exact .joinRules ((sets_iff ht (by decide)).mp hm) (.inr (.inl rfl))
    · exact .joinRules ((sets_iff ht (by decide)).mp hm) (.inr (.inr ⟨rfl, hv⟩))
  · exact .thirdPartyInvite ((sets_iff ht (by decide)).mp hm) hs
  · exact .authorisingUser ((sets_iff ht (by decide)).mp hm) hv hu

theorem mem_needed {version : RoomVersion} {t : EventTemplate} {place : StateKey} :
    place ∈ needed version t.type t.sender t.stateKey t.content ↔ t.type ≠ "m.room.create" ∧
      (place ∈ [StateKey.create, .powerLevels, .member t.sender] ∨
        t.type = "m.room.member" ∧ place ∈ ofMembership version t.stateKey t.content) := by
  unfold needed
  split
  · rename_i ht
    simp [ht]
  · rename_i ht
    rw [mem_firstOfEach, List.mem_append, List.mem_ite_nil_right, and_iff_right ht]

theorem mem_needed_of_membership {version : RoomVersion} {t : EventTemplate} {place : StateKey}
    (ht : t.type = "m.room.member") (h : place ∈ ofMembership version t.stateKey t.content) :
    place ∈ needed version t.type t.sender t.stateKey t.content :=
  mem_needed.mpr ⟨by rw [ht]; decide, .inr ⟨ht, h⟩⟩

/-- The list holds just the places that the rules ask for. -/
theorem mem_needed_iff {version : RoomVersion} {t : EventTemplate} {place : StateKey} :
    place ∈ needed version t.type t.sender t.stateKey t.content ↔ t.AuthorisedBy version place := by
  constructor
  · intro h
    obtain ⟨ht, h | ⟨hmember, h⟩⟩ := mem_needed.mp h
    · simp only [List.mem_cons, List.not_mem_nil, or_false] at h
      rcases h with rfl | rfl | rfl
      · exact .create ht
      · exact .powerLevels ht
      · exact .sender ht
    · exact authorisedBy_of_mem hmember h
  · intro h
    cases h with
    | create ht => exact mem_needed.mpr ⟨ht, .inl (by simp)⟩
    | powerLevels ht => exact mem_needed.mpr ⟨ht, .inl (by simp)⟩
    | sender ht => exact mem_needed.mpr ⟨ht, .inl (by simp)⟩
    | target ht hu => exact mem_needed_of_membership ht (by simp [ofMembership, hu])
    | joinRules ht hm =>
      refine mem_needed_of_membership ht.1 ?_
      rcases hm with rfl | rfl | ⟨rfl, hv⟩
      · simp [ofMembership, (sets_iff ht.1 (by decide)).mpr ht]
      · simp [ofMembership, (sets_iff ht.1 (by decide)).mpr ht]
      · simp [ofMembership, (sets_iff ht.1 (by decide)).mpr ht, hv]
    | thirdPartyInvite ht hs =>
      refine mem_needed_of_membership ht.1 ?_
      simp [ofMembership, (sets_iff ht.1 (by decide)).mpr ht, textAt, hs, Json.string?]
    | authorisingUser ht hv hu =>
      refine mem_needed_of_membership ht.1 ?_
      simp [ofMembership, (sets_iff ht.1 (by decide)).mpr ht, hv, hu, Json.string?]

theorem nodup_needed (version : RoomVersion) (t : EventTemplate) :
    (needed version t.type t.sender t.stateKey t.content).Nodup := by
  unfold needed
  split
  · exact List.nodup_nil
  · exact nodup_firstOfEach _

/-- The creation comes first. -/
theorem head_needed {t : EventTemplate} (ht : t.type ≠ "m.room.create") (version : RoomVersion) :
    ∃ rest, needed version t.type t.sender t.stateKey t.content = .create :: rest := by
  unfold needed
  rw [if_neg ht]
  exact ⟨_, rfl⟩

end Authorisation

namespace Room

/-! ## What the state holds there -/

/-- The events of the state at some places, each of which is set. -/
def HoldAt (r : Room) : List StateKey → List String → Prop :=
  List.Forall₂ fun place id => ∃ e, r.stateEvent? place = some e ∧ e.id = id

theorem Settled.stateEvent?_of_find? {r : Room} (hr : r.Settled) {place : StateKey} {id : String}
    (h : Table.find? place r.state = some id) : ∃ e, r.stateEvent? place = some e ∧ e.id = id := by
  obtain ⟨e, he, -⟩ := hr.placed place id h
  exact ⟨e, Option.bind_eq_some_iff.mpr ⟨id, h, he⟩, (mem_of_event? he).2⟩

/-- No two places of the state hold one event. -/
theorem Settled.place_inj {r : Room} (hr : r.Settled) {p q : StateKey} {id : String}
    (hp : Table.find? p r.state = some id) (hq : Table.find? q r.state = some id) : p = q := by
  obtain ⟨e, he, hep⟩ := hr.placed p id hp
  obtain ⟨f, hf, hfq⟩ := hr.placed q id hq
  rw [he] at hf
  cases hf
  exact Option.some.inj (hep.symm.trans hfq)

theorem Settled.nodup_authorising {r : Room} (hr : r.Settled) (t : EventTemplate) :
    (r.authorising t).Nodup :=
  List.Nodup.filterMap (fun _ _ _ hp hq => hr.place_inj hp hq)
    (Authorisation.nodup_needed r.version t)

theorem Settled.holdAt_filter {r : Room} (hr : r.Settled) (places : List StateKey) :
    r.HoldAt (places.filter fun place => (r.stateEvent? place).isSome)
      (places.filterMap fun place => Table.find? place r.state) := by
  induction places with
  | nil => exact .nil
  | cons place places ih =>
    cases hid : Table.find? place r.state with
    | none =>
      have hnone : ¬ (r.stateEvent? place).isSome = true := by
        rw [hr.stateEvent?_isSome, hid]
        exact Bool.false_ne_true
      rw [List.filter_cons, if_neg hnone, List.filterMap_cons, hid]
      exact ih
    | some id =>
      have hsome : (r.stateEvent? place).isSome = true := by
        rw [hr.stateEvent?_isSome, hid]
        rfl
      rw [List.filter_cons, if_pos hsome, List.filterMap_cons, hid]
      exact .cons (hr.stateEvent?_of_find? hid) ih

/-- Members that are not overridden stay as they are. -/
theorem find?_applyOverrides {overrides proto : Members} {key : String}
    (h : Table.find? key overrides = none) :
    Table.find? key (applyOverrides overrides proto) = Table.find? key proto := by
  unfold applyOverrides
  induction overrides generalizing proto with
  | nil => rfl
  | cons row overrides ih =>
    obtain ⟨hkey, hrest⟩ := List.forall_mem_cons.mp (Table.find?_eq_none.mp h)
    rw [List.foldl_cons, ih (Table.find?_eq_none.mpr hrest)]
    split
    · rw [Table.find?_erase, if_neg hkey]
    · rw [Table.find?_insert_of_ne hkey]

/-- Take a room that any run of calls made of an empty one, and an event built in it. The event cites
different events, all of the current state: those at the places by which the rules of the version
authorise the template, as far as the state holds them, one for each of these places. Unless it
creates the room it cites the creation first. Its JSON says so too, unless the template overrides
that. -/
theorem authorised_by_state (roomId : String) (version : RoomVersion) (calls : List Call)
    {origin : String} {now : Int} {t : EventTemplate} {parents : List String} {u : UnsignedEvent}
    (h : ((Room.new roomId version).afterAll calls).buildOn origin now t parents = .ok u) :
    let r := (Room.new roomId version).afterAll calls
    let cited := u.fields.authEvents
    (cited.Nodup ∧ ∀ id ∈ cited, ∃ e ∈ r.events, e ∈ r.currentState ∧ e.id = id) ∧
    (∃ places : List StateKey, places.Nodup ∧ (∀ place, place ∈ places ↔
        t.AuthorisedBy version place ∧ (r.stateEvent? place).isSome = true) ∧
      r.HoldAt places cited) ∧
    (t.type ≠ "m.room.create" → ∃ e, r.stateEvent? .create = some e ∧ cited.head? = some e.id) ∧
    (Table.find? "auth_events" t.overrides = none →
      Table.find? "auth_events" u.proto = some (Json.ofStrings cited)) := by
  intro r cited
  have hr : r.Settled := settled_afterAll roomId version calls
  have hversion : r.version = version := version_afterAll ..
  obtain ⟨-, hstart, depth, -, rfl⟩ := buildOn_ok.mp h
  have hcited : cited = (Authorisation.needed r.version t.type t.sender t.stateKey
      t.content).filterMap fun place => Table.find? place r.state := rfl
  refine ⟨⟨hr.nodup_authorising t, fun id hid => ?_⟩,
    ⟨_, (Authorisation.nodup_needed r.version t).filter fun place => (r.stateEvent? place).isSome,
      fun place => ?_, hr.holdAt_filter _⟩, fun ht => ?_, fun hover => ?_⟩
  · obtain ⟨place, -, hplace⟩ := List.mem_filterMap.mp (hcited ▸ hid)
    obtain ⟨e, he, hid⟩ := hr.stateEvent?_of_find? hplace
    have hmem := mem_currentState_of_stateEvent? he
    exact ⟨e, mem_currentState hmem, hmem, hid⟩
  · rw [List.mem_filter, Authorisation.mem_needed_iff, hversion]
  · obtain ⟨e, he⟩ := Option.isSome_iff_exists.mp ((checkStart_ok ht).mp hstart)
    obtain ⟨id, hid, hevent⟩ := Option.bind_eq_some_iff.mp he
    obtain ⟨rest, hneeded⟩ := Authorisation.head_needed ht r.version
    refine ⟨e, he, ?_⟩
    rw [hcited, hneeded, List.filterMap_cons, hid, (mem_of_event? hevent).2]
    rfl
  · refine (find?_applyOverrides hover).trans ?_
    simp only [find?_protoOf, find?_commonMembers, String.reduceEq, and_false, if_false, if_true]
    rfl

/-- The creator joins a room again that only members of other rooms may join, and lets himself in. -/
def rejoining : EventTemplate :=
  .state "m.room.member" "@u:a" "@u:a"
    (.obj [("join_authorised_via_users_server", .str "@u:a"), ("membership", .str "join")])

/-- All three memberships that the rejoining asks for are one, and cited once. -/
theorem authorised_by_state_rejoining :
    ∃ calls u, ((Room.new "!r:a" .default).afterAll calls).buildOn "a" 1 rejoining [openingId] = .ok u ∧
      u.fields.authEvents = [creatingId, rankingId, joiningId, openingId] ∧
      u.fields.authEvents.Nodup ∧
      Table.find? "auth_events" u.proto = some (Json.ofStrings u.fields.authEvents) := by
  let calls : List Call := [.add (named creatingId creating), .add (named joiningId joining),
    .add (named rankingId ranking), .add (named openingId opening)]
  have hstarted : (Room.new "!r:a" .default).afterAll calls = started := rfl
  have hbuild : ∃ u, started.buildOn "a" 1 rejoining [openingId] = .ok u ∧
      u.fields.authEvents = [creatingId, rankingId, joiningId, openingId] := ⟨_, rfl, rfl⟩
  obtain ⟨u, hu, hauth⟩ := hbuild
  rw [← hstarted] at hu
  obtain ⟨⟨hnodup, -⟩, -, -, hjson⟩ := authorised_by_state "!r:a" .default calls hu
  exact ⟨calls, u, hu, hauth, hnodup, hjson rfl⟩

end Room

end Homeserver
