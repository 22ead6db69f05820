/-
Events that a room builds: the fields are read back from the JSON that is made of them, the JSON is
strict and readable when the content is, it is accepted once it is signed, and the server to which it
is proposed makes of it what it would have built itself.
-/
import Homeserver.Proofs.Event.Signed
import Homeserver.Room.Build

namespace Homeserver

/-! ## Reading what was built -/

theorem mapM_string?_map_str (items : List String) :
    (items.map Json.str).mapM Json.string? = some items := by
  induction items with
  | nil => rfl
  | cons s items ih => simp [List.mapM_cons, Json.string?, ih]

/-- What is read of an integer is the integer, if it is one of 64 bits with sign. -/
theorem readInteger_int {m : Members} {key : String} {n k : Int}
    (h : Table.find? key m = some (.int n)) :
    EventFields.readInteger m key = .ok k ↔ n = k ∧ (Json.int n).int? = some n := by
  unfold EventFields.readInteger
  simp only [h]
  cases hn : (Json.int n).int? with
  | none => simp
  | some j =>
    obtain ⟨rfl, -⟩ := Json.int?_eq_some.mp hn
    simp

theorem Json.readable_of_safe {n : Int} (h : Safe n) (depth : Nat) : (Json.int n).Readable depth := by
  have hmin : Int64.minValue.toInt = -9223372036854775808 := by decide
  have hsize : UInt64.size = 18446744073709551616 := by decide
  obtain ⟨hlow, hhigh⟩ := h
  unfold maxSafeInteger at hlow hhigh
  exact readable_int ⟨by rw [hmin]; omega, by rw [hsize]; omega⟩ depth

theorem readIds_of_strings {m : Members} {key : String} {ids : List String}
    (h : Table.find? key m = some (Json.ofStrings ids)) : EventFields.readIds m key = .ok ids := by
  unfold EventFields.readIds
  simp only [h, Json.ofStrings, Option.bind_some, Json.array?, mapM_string?_map_str]

/-- An event that is made of a proposal has the time of the server that makes it and the proposed
depth. -/
theorem fields_ofProto {version : RoomVersion} {m : Members} {origin : String} {now : Int}
    {u : UnsignedEvent} (h : UnsignedEvent.ofProto version (.obj m) origin now = .ok u) :
    u.fields.timestamp = now ∧
      ∀ n, Table.find? "depth" m = some (.int n) → u.fields.depth = n := by
  unfold UnsignedEvent.ofProto at h
  obtain ⟨fields, hread, h⟩ := bind_ok.mp h
  cases h
  obtain ⟨-, -, -, -, -, -, -, hdepth, htime⟩ := EventFields.read_ok.mp hread
  refine ⟨((readInteger_int (Table.find?_insert_self _ _ _)).mp htime).1.symm, fun n hn => ?_⟩
  refine ((readInteger_int ?_).mp hdepth).1.symm
  have hnamed : ∀ named : Members, Table.find? "depth" named = some (.int n) →
      Table.find? "depth" (if version.updatedRedaction then named
        else Table.insert "origin" (.str origin) named) = some (.int n) := by
    intro named hfind
    split
    · exact hfind
    · rw [Table.find?_insert_of_ne (by decide), hfind]
  rw [Table.find?_insert_of_ne (by decide)]
  refine hnamed _ ?_
  simp only [Table.find?_erase, String.reduceEq, if_false, hn]

/-! ## What the parser admits -/

/-- The integers that an event of a version may have as its depth and its time. -/
def RoomVersion.Admits (version : RoomVersion) (n : Int) : Prop :=
  if version.strictJson then Json.Safe n
  else Int64.minValue.toInt ≤ n ∧ n ≤ Int64.maxValue.toInt

theorem RoomVersion.admits_iff {version : RoomVersion} {n : Int} : version.Admits n ↔
    (Json.int n).int? = some n ∧ (version.strictJson = true → (Json.int n).Strict) := by
  unfold Admits
  rw [Json.int?_eq_some, Json.strict_int_iff]
  cases version.strictJson with
  | true =>
    simp only [if_true, true_and, forall_const]
    refine ⟨fun h => ⟨(Json.int?_eq_some.mp (Json.int?_of_safe h)).2, h⟩, And.right⟩
  | false => simp

theorem RoomVersion.Admits.of_safe {n : Int} (h : Json.Safe n) (version : RoomVersion) :
    version.Admits n :=
  admits_iff.mpr ⟨Json.int?_of_safe h, fun _ => Json.strict_int h⟩

namespace Event

variable {version : RoomVersion} {m : Members} {e : Event} {n : Int}

theorem admits_of_readInteger {key : String} {k : Int}
    (hstrict : version.strictJson = true → (Json.obj m).Strict)
    (hn : Table.find? key m = some (.int n)) (h : EventFields.readInteger m key = .ok k) :
    version.Admits n :=
  RoomVersion.admits_iff.mpr ⟨((readInteger_int hn).mp h).2, fun hv => (hstrict hv).find? hn⟩

/-- An accepted event has a depth and a time that its version admits. -/
theorem admits_of_ofPdu {depth time : Int} (h : ofPdu version (.obj m) = .ok e)
    (hdepth : Table.find? "depth" m = some (.int depth))
    (htime : Table.find? "origin_server_ts" m = some (.int time)) :
    version.Admits depth ∧ version.Admits time := by
  obtain ⟨fields, hread, -, hstrict, -⟩ := ofPdu_ok.mp h
  obtain ⟨-, -, -, -, -, -, -, hd, ht⟩ := EventFields.read_ok.mp hread
  exact ⟨admits_of_readInteger hstrict hdepth hd, admits_of_readInteger hstrict htime ht⟩

end Event

namespace Room

/-! ## The JSON of an event -/

theorem find?_commonMembers (f : EventFields) (key : String) :
    Table.find? key (commonMembers f) =
      if "origin_server_ts" = key then some (.int f.timestamp)
      else if "depth" = key then some (.int f.depth)
      else if "auth_events" = key then some (Json.ofStrings f.authEvents)
      else if "prev_events" = key then some (Json.ofStrings f.prevEvents)
      else if "content" = key then some f.content
      else if "type" = key then some (.str f.type)
      else if "sender" = key then some (.str f.sender)
      else if "room_id" = key then some (.str f.roomId)
      else none := by
  unfold commonMembers Table.ofList
  simp only [List.foldl_cons, List.foldl_nil, Table.find?_insert, Table.find?]

/-- An event has the members that all events have, its state key if it has one, and under the older
versions its origin. -/
theorem find?_protoOf (version : RoomVersion) (f : EventFields) (origin key : String) :
    Table.find? key (protoOf version f origin) =
      if version.updatedRedaction = false ∧ "origin" = key then some (.str origin)
      else if "state_key" = key then f.stateKey.map .str
      else Table.find? key (commonMembers f) := by
  have horigin : ∀ keyed : Members, Table.find? key keyed =
        (if "state_key" = key then f.stateKey.map .str else Table.find? key (commonMembers f)) →
      Table.find? key (if version.updatedRedaction then keyed
        else Table.insert "origin" (.str origin) keyed) =
        if version.updatedRedaction = false ∧ "origin" = key then some (.str origin)
        else if "state_key" = key then f.stateKey.map .str
        else Table.find? key (commonMembers f) := by
    intro keyed hkeyed
    cases version.updatedRedaction with
    | true =>
      rw [if_pos rfl, if_neg fun h => nomatch h.1]
      exact hkeyed
    | false =>
      refine (Table.find?_insert _ _ _ _).trans ?_
      by_cases h : "origin" = key
      · rw [if_pos h, if_pos ⟨rfl, h⟩]
      · rw [if_neg h, if_neg fun he => h he.2]
        exact hkeyed
  refine horigin _ ?_
  cases f.stateKey with
  | some k => exact Table.find?_insert _ _ _ _
  | none =>
    by_cases h : "state_key" = key
    · rw [if_pos h, ← h]
      simp only [find?_commonMembers, String.reduceEq, if_false, Option.map_none]
    · rw [if_neg h]

theorem find?_depth_protoOf (version : RoomVersion) (f : EventFields) (origin : String) :
    Table.find? "depth" (protoOf version f origin) = some (.int f.depth) := by
  simp only [find?_protoOf, find?_commonMembers, String.reduceEq, and_false, if_false, if_true]

theorem find?_timestamp_protoOf (version : RoomVersion) (f : EventFields) (origin : String) :
    Table.find? "origin_server_ts" (protoOf version f origin) = some (.int f.timestamp) := by
  simp only [find?_protoOf, find?_commonMembers, String.reduceEq, and_false, if_false, if_true]

/-- The fields of an event are read back from its JSON, if its depth and its time are integers of 64
bits. -/
theorem read_protoOf_of_int? {f : EventFields} (hc : f.content.isObject = true)
    (hd : (Json.int f.depth).int? = some f.depth)
    (ht : (Json.int f.timestamp).int? = some f.timestamp) (version : RoomVersion)
    (origin : String) : EventFields.read (protoOf version f origin) = .ok f := by
  refine EventFields.read_ok.mpr ⟨?_, ?_, ?_, ?_, ?_, ?_, ?_, ?_, ?_⟩
  · have hfind : Table.find? "content" (protoOf version f origin) = some f.content := by
      simp only [find?_protoOf, find?_commonMembers, String.reduceEq, and_false, if_false, if_true]
    unfold EventFields.readContent
    rw [hfind]
    cases hf : f.content with
    | obj content => rfl
    | _ => rw [hf] at hc; cases hc
  · have hfind : Table.find? "state_key" (protoOf version f origin) = f.stateKey.map .str := by
      simp only [find?_protoOf, String.reduceEq, and_false, if_false, if_true]
    unfold EventFields.readStateKey
    rw [hfind]
    cases f.stateKey <;> rfl
  · refine EventFields.readString_ok.mpr ?_
    simp only [find?_protoOf, find?_commonMembers, String.reduceEq, and_false, if_false, if_true]
  · refine EventFields.readString_ok.mpr ?_
    simp only [find?_protoOf, find?_commonMembers, String.reduceEq, and_false, if_false, if_true]
  · refine EventFields.readString_ok.mpr ?_
    simp only [find?_protoOf, find?_commonMembers, String.reduceEq, and_false, if_false, if_true]
  · refine readIds_of_strings ?_
    simp only [find?_protoOf, find?_commonMembers, String.reduceEq, and_false, if_false, if_true]
  · refine readIds_of_strings ?_
    simp only [find?_protoOf, find?_commonMembers, String.reduceEq, and_false, if_false, if_true]
  · exact (readInteger_int (find?_depth_protoOf version f origin)).mpr ⟨rfl, hd⟩
  · exact (readInteger_int (find?_timestamp_protoOf version f origin)).mpr ⟨rfl, ht⟩

theorem read_protoOf {f : EventFields} (hc : f.content.isObject = true) (hd : Json.Safe f.depth)
    (ht : Json.Safe f.timestamp) (version : RoomVersion) (origin : String) :
    EventFields.read (protoOf version f origin) = .ok f :=
  read_protoOf_of_int? hc (Json.int?_of_safe hd) (Json.int?_of_safe ht) version origin

/-! ## Values that events are made of -/

/-- What holds of the JSON of an event when it holds of objects with such values: of the strings,
the lists of ids, the content, the depth and the time. -/
theorem protoOf_of_values {P : Json → Prop} {Q : Members → Prop}
    (hQ : ∀ rows : List (String × Json), (∀ row ∈ rows, P row.2) → Q (Table.ofList rows))
    (hinsert : ∀ key v m, P v → Q m → Q (Table.insert key v m))
    (hstr : ∀ s, P (.str s)) (hids : ∀ ids, P (Json.ofStrings ids)) {f : EventFields}
    (hc : P f.content) (hd : P (.int f.depth)) (ht : P (.int f.timestamp))
    (version : RoomVersion) (origin : String) : Q (protoOf version f origin) := by
  have hcommon : Q (commonMembers f) := by
    refine hQ _ ?_
    simp [hc, hd, ht, hstr, hids]
  have horigin : ∀ keyed : Members, Q keyed → Q (if version.updatedRedaction then keyed
      else Table.insert "origin" (.str origin) keyed) := by
    intro keyed hkeyed
    cases version.updatedRedaction with
    | true => exact hkeyed
    | false => exact hinsert _ _ _ (hstr origin) hkeyed
  refine horigin _ ?_
  cases f.stateKey with
  | none => exact hcommon
  | some key => exact hinsert _ _ _ (hstr key) hcommon

theorem sorted_protoOf (version : RoomVersion) (f : EventFields) (origin : String) :
    Table.Sorted (protoOf version f origin) :=
  protoOf_of_values (P := fun _ => True) (Q := Table.Sorted) (fun rows _ => Table.sorted_ofList rows)
    (fun key v _ _ hm => hm.insert key v) (fun _ => trivial) (fun _ => trivial) trivial trivial
    trivial version origin

/-- Overrides keep the members in order. -/
theorem sorted_applyOverrides {proto : Members} (h : Table.Sorted proto) (overrides : Members) :
    Table.Sorted (applyOverrides overrides proto) := by
  unfold applyOverrides
  induction overrides generalizing proto with
  | nil => exact h
  | cons row overrides ih =>
    refine ih ?_
    dsimp only
    split
    · exact h.erase _
    · exact h.insert _ _

theorem strict_protoOf {f : EventFields} (hc : f.content.Strict) (hd : Json.Safe f.depth)
    (ht : Json.Safe f.timestamp) (version : RoomVersion) (origin : String) :
    (Json.obj (protoOf version f origin)).Strict :=
  protoOf_of_values (Q := fun m => (Json.obj m).Strict) (fun _ => Json.strict_ofList)
    (fun key _ _ hv hm => hm.insert hv key) Json.strict_str Json.strict_ofStrings hc
    (Json.strict_int hd) (Json.strict_int ht) version origin

theorem readable_protoOf {depth : Nat} {f : EventFields} (hc : f.content.Readable (depth + 1))
    (hd : (Json.int f.depth).Readable (depth + 1))
    (ht : (Json.int f.timestamp).Readable (depth + 1)) (version : RoomVersion) (origin : String) :
    (Json.obj (protoOf version f origin)).Readable (depth + 2) :=
  protoOf_of_values (Q := fun m => (Json.obj m).Readable (depth + 2))
    Json.readable_object (fun key _ _ hv hm => hm.insert hv key)
    (Json.readable_str _) (Json.readable_ofStrings _) hc hd ht version origin

/-! ## Accepting what was built -/

/-- A signed event with the JSON of its fields and strict content is accepted, as the event that it
is, iff its depth and its time are admitted. -/
theorem ofPdu_signEvent_iff {u : UnsignedEvent} {origin : String}
    (hproto : u.proto = protoOf u.version u.fields origin)
    (hobject : u.fields.content.isObject = true)
    (hstrict : u.version.strictJson = true → u.fields.content.Strict) (s : Identity) {e : Event} :
    Event.ofPdu u.version (s.signEvent u).json = .ok e ↔
      e = s.signEvent u ∧ u.version.Admits u.fields.depth ∧ u.version.Admits u.fields.timestamp := by
  have haccepted : u.version.Admits u.fields.depth → u.version.Admits u.fields.timestamp →
      Event.ofPdu u.version (s.signEvent u).json = .ok (s.signEvent u) := by
    intro hdepth htime
    obtain ⟨hdepth, hsafe⟩ := RoomVersion.admits_iff.mp hdepth
    obtain ⟨htime, hsafe'⟩ := RoomVersion.admits_iff.mp htime
    refine Event.ofPdu_signEvent ?_ (fun hv => ?_) s
    · rw [hproto]
      exact read_protoOf_of_int? hobject hdepth htime _ _
    · rw [hproto]
      exact strict_protoOf (hstrict hv) (Json.strict_int_iff.mp (hsafe hv))
        (Json.strict_int_iff.mp (hsafe' hv)) _ _
  constructor
  · intro h
    -- signing leaves the depth and the time as they were built
    have hsigned : ∀ key, key ≠ "hashes" → key ≠ "signatures" →
        Table.find? key (s.signEvent u).json.membersD =
          Table.find? key (protoOf u.version u.fields origin) := by
      intro key hhashes hsignatures
      rw [← hproto]
      exact (find?_insertSignature hsignatures _ _ _ _).trans
        (Table.find?_insert_of_ne (Ne.symm hhashes) _ _)
    obtain ⟨hdepth, htime⟩ := Event.admits_of_ofPdu h
      ((hsigned "depth" (by decide) (by decide)).trans (find?_depth_protoOf _ _ _))
      ((hsigned "origin_server_ts" (by decide) (by decide)).trans (find?_timestamp_protoOf _ _ _))
    rw [haccepted hdepth htime] at h
    exact ⟨(Except.ok.inj h).symm, hdepth, htime⟩
  · rintro ⟨rfl, hdepth, htime⟩
    exact haccepted hdepth htime

/-! ## Proposals -/

/-- Another server makes of the JSON of an event the one that it would have built itself at its own
time. -/
theorem ofProto_protoOf {f : EventFields} {now : Int} (hc : f.content.isObject = true)
    (hd : Json.Safe f.depth) (hnow : Json.Safe now) (version : RoomVersion)
    (proposer origin : String) :
    UnsignedEvent.ofProto version (.obj (protoOf version f proposer)) origin now =
      .ok ⟨version, { f with timestamp := now },
        protoOf version { f with timestamp := now } origin⟩ := by
  have hsorted := sorted_protoOf version f proposer
  -- none of the members that are dropped stands in the JSON of an event
  have hdropped : ∀ key ∈ ["event_id", "hashes", "signatures"],
      Table.find? key (protoOf version f proposer) = none := by
    intro key hkey
    simp only [List.mem_cons, List.not_mem_nil, or_false] at hkey
    rcases hkey with rfl | rfl | rfl <;>
      simp only [find?_protoOf, find?_commonMembers, String.reduceEq, and_false, if_false]
  have hcommon : ∀ key, Table.find? key (commonMembers { f with timestamp := now }) =
      if "origin_server_ts" = key then some (.int now) else Table.find? key (commonMembers f) := by
    intro key
    rw [find?_commonMembers, find?_commonMembers]
    split <;> rfl
  have hbare : Table.erase "event_id" (Table.erase "hashes" (Table.erase "signatures"
      (protoOf version f proposer))) = protoOf version f proposer := by
    rw [Table.erase_of_find?_none (hdropped _ (by simp)),
      Table.erase_of_find?_none (hdropped _ (by simp)),
      Table.erase_of_find?_none (hdropped _ (by simp))]
  have hproto : Table.insert "origin_server_ts" (.int now)
      (if version.updatedRedaction then protoOf version f proposer
        else Table.insert "origin" (.str origin) (protoOf version f proposer)) =
      protoOf version { f with timestamp := now } origin := by
    have hnamed : Table.Sorted (if version.updatedRedaction then protoOf version f proposer
        else Table.insert "origin" (.str origin) (protoOf version f proposer)) := by
      split
      · exact hsorted
      · exact hsorted.insert _ _
    -- where the version has an origin, it is overwritten by that of the server that signs
    refine (hnamed.insert _ _).ext (sorted_protoOf _ _ _) fun key => ?_
    rw [Table.find?_insert, find?_protoOf, hcommon]
    by_cases ht : "origin_server_ts" = key
    · subst ht
      simp only [String.reduceEq, and_false, if_false, if_true]
    · rw [if_neg ht, if_neg ht]
      cases hversion : version.updatedRedaction with
      | true => simp only [if_true, find?_protoOf, hversion, Bool.true_eq_false, false_and, if_false]
      | false =>
        simp only [Bool.false_eq_true, if_false, Table.find?_insert, find?_protoOf, hversion,
          true_and]
        split <;> rfl
  have hread := read_protoOf (f := { f with timestamp := now }) hc hd hnow version origin
  unfold UnsignedEvent.ofProto
  simp only [hbare, hproto, hread, bind, Except.bind, pure, Except.pure]

end Room

end Homeserver
