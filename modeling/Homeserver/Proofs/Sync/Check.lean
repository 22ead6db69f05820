/-
What decides the stock checks. Each reads some lists of events in an answer and holds iff the answer
lists the room that the check is about, if any, and some event of these lists is as it should be. So
more events, or the same in another order, never make a check fail that holds, and the lists that it
does not read do not count.
-/
import Homeserver.Proofs.Json.Path
import Homeserver.Sync.Check

namespace Homeserver

/-! ## Lists of events -/

/-- A list of events in an answer. -/
inductive EventList where
  /-- The events of a room under a key, such as those of its timeline. -/
  | inRoom (place room key : String)
  /-- The events under a key beside the rooms, such as those of presences. -/
  | beside (key : String) (hkey : key ≠ "rooms")
  deriving DecidableEq

/-- The members that lead to a room. -/
def roomPath (place room : String) : List String := ["rooms", place, room]

namespace EventList

/-- The room to which the events belong, and the section under which it is listed. -/
def room? : EventList → Option (String × String)
  | .inRoom place room _ => some (place, room)
  | .beside .. => none

/-- The members that lead to the list. -/
def path : EventList → List String
  | .inRoom place room key => ["rooms", place, room, key, "events"]
  | .beside key _ => [key, "events"]

theorem eq_of_prefix_path {l l' : EventList} (h : l.path <+: l'.path) : l = l' := by
  cases l with
  | inRoom place room key =>
    cases l' with
    | inRoom place' room' key' =>
      simp only [path, List.cons_prefix_cons, true_and] at h
      obtain ⟨rfl, rfl, rfl, -⟩ := h
      rfl
    | beside key' hkey' => exact absurd (List.cons_prefix_cons.mp h).1.symm hkey'
  | beside key hkey =>
    cases l' with
    | inRoom place' room' key' => exact absurd (List.cons_prefix_cons.mp h).1 hkey
    | beside key' hkey' =>
      obtain ⟨rfl, -⟩ := List.cons_prefix_cons.mp h
      rfl

theorem prefix_path_iff {l : EventList} {place room : String} :
    roomPath place room <+: l.path ↔ l.room? = some (place, room) := by
  cases l with
  | inRoom p r key =>
    simp only [path, roomPath, room?, List.cons_prefix_cons, List.nil_prefix, true_and, and_true,
      Option.some.injEq, Prod.mk.injEq, eq_comm]
  | beside key hkey =>
    simp only [path, roomPath, room?, List.cons_prefix_cons, hkey.symm, false_and, reduceCtorEq]

theorem not_path_leads_to_roomPath (l : EventList) (place room : String) :
    ¬ l.path <+: roomPath place room := by
  cases l with
  | inRoom p r key => simp [path, roomPath]
  | beside key hkey => simp [path, roomPath, hkey]

end EventList

namespace Json

/-- Whether an answer lists a room in a section, if it is asked for one. -/
def lists (response : Json) : Option (String × String) → Bool
  | some (place, room) => (response.path? (roomPath place room)).isSome
  | none => true

/-- The events of a list; there are none if the answer has no such list. -/
def eventsAt (response : Json) (l : EventList) : List Json :=
  ((response.path? l.path).bind array?).getD []

/-- The answer with these events in a list, and as it was but for them. -/
def withEvents (response : Json) (l : EventList) (events : List Json) : Json :=
  setPath (.arr events) l.path response

variable (response : Json) (l : EventList) (events : List Json)

theorem eventsAt_withEvents (l' : EventList) : (response.withEvents l events).eventsAt l' =
    if l = l' then events else response.eventsAt l' := by
  unfold eventsAt withEvents
  split
  · rename_i h
    subst h
    rw [path?_setPath_self]
    rfl
  · rename_i h
    rw [path?_setPath_of_incomparable _ (fun hp => h (EventList.eq_of_prefix_path hp))
      (fun hp => h (EventList.eq_of_prefix_path hp).symm)]

/-- Events are put in a list of a room by listing the room; other rooms are listed as before. -/
theorem lists_withEvents (about : Option (String × String)) :
    (response.withEvents l events).lists about = (l.room? = about || response.lists about) := by
  rcases about with _ | ⟨place, room⟩
  · exact (Bool.or_true _).symm
  · show (Option.isSome _) = (_ || Option.isSome _)
    unfold withEvents
    by_cases h : l.room? = some (place, room)
    · rw [path?_setPath_isSome _ (EventList.prefix_path_iff.mpr h), decide_eq_true h, Bool.true_or]
    · rw [path?_setPath_of_incomparable _ (l.not_path_leads_to_roomPath place room)
        (mt EventList.prefix_path_iff.mp h), decide_eq_false h, Bool.false_or]

end Json

/-! ## The stock checks -/

/-- The checks that come with the library. -/
inductive StockCheck where
  | joinedTo (user room : String)
  | invitedTo (user room : String)
  | leftFrom (user room : String)
  | timelineHas (room : String) (test : Json → Bool)
  | stateHas (room : String) (test : Json → Bool)
  | ephemeralHas (room : String) (test : Json → Bool)
  | presenceHas (user : String) (presence : Option String) (tests : List (Json → Bool))

/-- The event sets a membership of a user. -/
structure SetsMembership (user membership : String) (event : Json) : Prop where
  type : event.get? "type" = some (.str "m.room.member")
  user : event.get? "state_key" = some (.str user)
  membership : event.path? ["content", "membership"] = some (.str membership)

/-- The event is of a user's presence, and of this one if one is asked for. -/
structure SetsPresence (user : String) (presence : Option String) (event : Json) : Prop where
  user : event.get? "sender" = some (.str user)
  presence : ∀ value, presence = some value →
    event.path? ["content", "presence"] = some (.str value)

namespace StockCheck

def check : StockCheck → SyncCheck
  | .joinedTo user room => .joinedTo user room
  | .invitedTo user room => .invitedTo user room
  | .leftFrom user room => .leftFrom user room
  | .timelineHas room test => .timelineHas room test
  | .stateHas room test => .stateHas room test
  | .ephemeralHas room test => .ephemeralHas room test
  | .presenceHas user presence tests => .presenceHas user presence tests

/-- The room that an answer has to list, and the section where. -/
def room? : StockCheck → Option (String × String)
  | .joinedTo _ room | .timelineHas room _ | .stateHas room _ | .ephemeralHas room _ =>
    some ("join", room)
  | .invitedTo _ room => some ("invite", room)
  | .leftFrom _ room => some ("leave", room)
  | .presenceHas .. => none

/-- The lists of events that a check reads. -/
def reads : StockCheck → List EventList
  | .joinedTo _ room => [.inRoom "join" room "timeline", .inRoom "join" room "state"]
  | .invitedTo _ room => [.inRoom "invite" room "invite_state"]
  | .leftFrom _ room => [.inRoom "leave" room "timeline", .inRoom "leave" room "state"]
  | .timelineHas room _ => [.inRoom "join" room "timeline"]
  | .stateHas room _ => [.inRoom "join" room "state"]
  | .ephemeralHas room _ => [.inRoom "join" room "ephemeral"]
  | .presenceHas .. => [.beside "presence" (by decide)]

/-- What a check looks for. -/
def Wants : StockCheck → Json → Prop
  | .joinedTo user _, e => SetsMembership user "join" e
  | .invitedTo user _, e => SetsMembership user "invite" e
  | .leftFrom user _, e => SetsMembership user "leave" e ∨ SetsMembership user "ban" e
  | .timelineHas _ test, e | .stateHas _ test, e | .ephemeralHas _ test, e => test e = true
  | .presenceHas user presence tests, e =>
    SetsPresence user presence e ∧ ∀ test ∈ tests, test e = true

end StockCheck

theorem isMember_iff {user : String} {memberships : List String} {e : Json} :
    isMember user memberships e = true ↔ ∃ m ∈ memberships, SetsMembership user m e := by
  unfold isMember
  simp only [Bool.and_eq_true, decide_eq_true_eq, Json.bind_string?_eq_some, Option.any_eq_true,
    List.contains_iff_mem]
  constructor
  · rintro ⟨⟨htype, huser⟩, m, hm, hmem⟩
    exact ⟨m, hmem, htype, huser, hm⟩
  · rintro ⟨m, hmem, htype, huser, hm⟩
    exact ⟨⟨htype, huser⟩, m, hm, hmem⟩

theorem isPresence_iff {user : String} {presence : Option String} {e : Json} :
    isPresence user presence e = true ↔ SetsPresence user presence e := by
  unfold isPresence
  rw [Bool.and_eq_true, decide_eq_true_eq, Json.bind_string?_eq_some]
  cases presence with
  | none => exact ⟨fun h => ⟨h.1, fun _ hv => nomatch hv⟩, fun h => ⟨h.user, rfl⟩⟩
  | some value =>
    rw [decide_eq_true_eq, Json.bind_string?_eq_some]
    constructor
    · rintro ⟨huser, hvalue⟩
      exact ⟨huser, fun v hv => Option.some.inj hv ▸ hvalue⟩
    · rintro ⟨huser, hvalue⟩
      exact ⟨huser, hvalue value rfl⟩

/-- A check of a room finds out whether the room is listed, and then looks at the events under its
keys. -/
theorem SyncCheck.evaluate_roomHas {name room label : String} {place : RoomSection}
    {keys : List String} {test : Json → Bool} (response : Json) :
    (roomHas name place room keys label test).evaluate response =
      if response.lists (some (place.name, room)) then
        anyEvent ((keys.map (EventList.inRoom place.name room)).flatMap response.eventsAt) label test
      else .error (.roomMissing room place) := by
  show (roomIn response place room >>= fun v => anyEvent (keys.flatMap (eventsUnder v)) label test)
    = if (response.path? (roomPath place.name room)).isSome then _ else _
  cases hroom : response.path? (roomPath place.name room) with
  | none =>
    have hin : roomIn response place room = .error (.roomMissing room place) := by
      rw [roomIn, show response.path? ["rooms", place.name, room] = none from hroom]
    rw [hin]
    rfl
  | some v =>
    have hin : roomIn response place room = .ok v := by
      rw [roomIn, show response.path? ["rooms", place.name, room] = some v from hroom]
    have hevents : (fun key => response.eventsAt (.inRoom place.name room key)) = eventsUnder v := by
      funext key
      have hpath : response.path? (EventList.inRoom place.name room key).path =
          v.path? [key, "events"] := by
        have happend := response.path?_append (roomPath place.name room) [key, "events"]
        rw [hroom, Option.bind_some] at happend
        exact happend
      rw [Json.eventsAt, hpath, eventsUnder]
    rw [hin, List.flatMap_map, hevents]
    rfl

namespace StockCheck

/-- A check is a search of its lists, if the answer lists its room. -/
theorem exists_search (c : StockCheck) : ∃ label test why, (∀ e, test e = true ↔ c.Wants e) ∧
    ∀ response, c.check.evaluate response =
      if response.lists c.room? then anyEvent (c.reads.flatMap response.eventsAt) label test
      else .error why := by
  cases c with
  | joinedTo user room =>
    exact ⟨_, _, _, fun e => by simp [isMember_iff, Wants], SyncCheck.evaluate_roomHas⟩
  | invitedTo user room =>
    exact ⟨_, _, _, fun e => by simp [isMember_iff, Wants], SyncCheck.evaluate_roomHas⟩
  | leftFrom user room =>
    exact ⟨_, _, _, fun e => by simp [isMember_iff, Wants], SyncCheck.evaluate_roomHas⟩
  | timelineHas room test => exact ⟨_, _, _, fun e => Iff.rfl, SyncCheck.evaluate_roomHas⟩
  | stateHas room test => exact ⟨_, _, _, fun e => Iff.rfl, SyncCheck.evaluate_roomHas⟩
  | ephemeralHas room test => exact ⟨_, _, _, fun e => Iff.rfl, SyncCheck.evaluate_roomHas⟩
  | presenceHas user presence tests =>
    refine ⟨"presence", fun e => isPresence user presence e && tests.all (fun test => test e),
      .noResponse, fun e => ?_, fun response => ?_⟩
    · rw [Bool.and_eq_true, isPresence_iff, List.all_eq_true, Wants]
    · rw [room?, Json.lists, if_pos rfl, reads, List.flatMap_singleton]
      rfl

theorem evaluate_ok (c : StockCheck) (response : Json) : c.check.evaluate response = .ok () ↔
    response.lists c.room? = true ∧ ∃ l ∈ c.reads, ∃ e ∈ response.eventsAt l, c.Wants e := by
  obtain ⟨label, test, why, htest, heval⟩ := c.exists_search
  have hfound : (c.reads.flatMap response.eventsAt).any test = true ↔
      ∃ l ∈ c.reads, ∃ e ∈ response.eventsAt l, c.Wants e := by
    simp only [List.any_eq_true, List.mem_flatMap, htest]
    exact ⟨fun ⟨e, ⟨l, hl, he⟩, hw⟩ => ⟨l, hl, e, he, hw⟩,
      fun ⟨l, hl, e, he, hw⟩ => ⟨e, ⟨l, hl, he⟩, hw⟩⟩
  rw [heval, ← hfound, anyEvent]
  cases response.lists c.room? <;> cases (c.reads.flatMap response.eventsAt).any test <;> simp

-- a member without a list of events is passed over
example : (joinedTo "@u:a" "!r:a").check.evaluate (.obj [("rooms", .obj [("join", .obj [("!r:a", .obj
    [("state", .obj [("events", .arr [.obj [("content", .obj [("membership", .str "join")]),
      ("state_key", .str "@u:a"), ("type", .str "m.room.member")]])]),
     ("timeline", .str "gone")])])])]) = .ok () := rfl

/-- Nothing but the listing of the room and the events that a check reads counts for it. -/
theorem evaluate_congr (c : StockCheck) {response other : Json}
    (hroom : other.lists c.room? = response.lists c.room?)
    (hevents : ∀ l ∈ c.reads, other.eventsAt l = response.eventsAt l) :
    c.check.evaluate other = c.check.evaluate response := by
  obtain ⟨label, test, why, -, heval⟩ := c.exists_search
  have hread : c.reads.flatMap other.eventsAt = c.reads.flatMap response.eventsAt := by
    rw [List.flatMap_def, List.flatMap_def, List.map_congr_left hevents]
  rw [heval, heval, hroom, hread]

/-- A check holds iff the answer lists its room, if it is about one, and some event that it reads is
as it should be. So it goes on to hold when events are put in any list, which as it was is among
them, in whatever order. And it gives the same for answers that list its room alike and have the
same events where it reads: what is put in any other list does not count, unless this lists the
room. -/
theorem monotone (c : StockCheck) (response : Json) :
    (c.check.evaluate response = .ok () ↔ response.lists c.room? = true ∧
      ∃ l ∈ c.reads, ∃ e ∈ response.eventsAt l, c.Wants e) ∧
    (∀ l events, response.eventsAt l ⊆ events → c.check.evaluate response = .ok () →
      c.check.evaluate (response.withEvents l events) = .ok ()) ∧
    (∀ other : Json, other.lists c.room? = response.lists c.room? →
      (∀ l ∈ c.reads, other.eventsAt l = response.eventsAt l) →
      c.check.evaluate other = c.check.evaluate response) ∧
    ∀ l ∉ c.reads, (l.room? = c.room? → response.lists c.room? = true) → ∀ events,
      c.check.evaluate (response.withEvents l events) = c.check.evaluate response := by
  refine ⟨c.evaluate_ok response, fun l events hsub hok => ?_, fun other => c.evaluate_congr,
    fun l hl hlisted events => c.evaluate_congr ?_ fun l' hl' => ?_⟩
  · rw [evaluate_ok] at hok ⊢
    obtain ⟨hroom, l', hl', e, he, hwants⟩ := hok
    refine ⟨?_, l', hl', e, ?_, hwants⟩
    · rw [Json.lists_withEvents, hroom, Bool.or_true]
    · rw [Json.eventsAt_withEvents]
      split
      case isTrue h => exact hsub (h ▸ he)
      case isFalse => exact he
  · rw [Json.lists_withEvents]
    by_cases h : l.room? = c.room?
    · rw [hlisted h, Bool.or_true]
    · rw [decide_eq_false h, Bool.false_or]
  · rw [Json.eventsAt_withEvents, if_neg fun h : l = l' => hl (h ▸ hl')]

end StockCheck

end Homeserver
