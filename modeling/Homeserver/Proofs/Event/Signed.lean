/-
What servers read of a signed event: the fields of the unsigned one, and the id under which it was
signed. The content hash and the id leave out what signing adds, so an event that is hashed and
signed is accepted from its JSON as the event that it is.
-/
import Homeserver.Event.Basic
import Homeserver.Proofs.Digest.Sha256
import Homeserver.Proofs.Event.Redaction
import Homeserver.Proofs.Json.RoundTrip
import Homeserver.Proofs.Json.Strict
import Homeserver.Proofs.Net.Percent
import Homeserver.Proofs.Result

namespace Homeserver

/-! ## Invalid events -/

/-- What fails here fails because an event is invalid. -/
def OnlyInvalid {α : Type} (x : Except EventError α) : Prop :=
  ∀ err, x = .error err → ∃ cause, err = .invalid cause

namespace OnlyInvalid

variable {α β : Type} {x : Except EventError α}

theorem ok (a : α) : OnlyInvalid (.ok a) := fun _ h => nomatch h

theorem error (cause : InvalidEvent) : OnlyInvalid (.error (.invalid cause) : Except EventError α) :=
  fun _ h => ⟨cause, (Except.error.inj h).symm⟩

theorem bind {g : α → Except EventError β} (hx : OnlyInvalid x) (hg : ∀ a, OnlyInvalid (g a)) :
    OnlyInvalid (x >>= g) := by
  intro err h
  rcases bind_error.mp h with h | ⟨a, -, h⟩
  · exact hx err h
  · exact hg a err h

theorem refusing {c : Prop} [Decidable c] (cause : InvalidEvent) (hx : OnlyInvalid x) :
    OnlyInvalid (if c then throw (.invalid cause) >>= fun _ : Unit => x else x) := by
  split
  · exact error cause
  · exact hx

end OnlyInvalid

/-! ## Fields -/

namespace EventFields

/-- The members from which the fields of an event are read. -/
def keys : List String :=
  ["content", "state_key", "room_id", "sender", "type", "prev_events", "auth_events", "depth",
    "origin_server_ts"]

theorem read_congr {m m' : Members} (h : ∀ key ∈ keys, Table.find? key m = Table.find? key m') :
    read m = read m' := by
  unfold read readContent readStateKey readString readIds readInteger
  rw [h "content" (by decide), h "state_key" (by decide), h "room_id" (by decide),
    h "sender" (by decide), h "type" (by decide), h "prev_events" (by decide),
    h "auth_events" (by decide), h "depth" (by decide), h "origin_server_ts" (by decide)]

theorem read_insert {key : String} (h : key ∉ keys) (v : Json) (m : Members) :
    read (Table.insert key v m) = read m :=
  read_congr fun k hk => Table.find?_insert_of_ne (fun he : key = k => h (he ▸ hk)) v m

theorem read_erase {key : String} (h : key ∉ keys) (m : Members) :
    read (Table.erase key m) = read m :=
  read_congr fun k hk => by rw [Table.find?_erase, if_neg fun he : key = k => h (he ▸ hk)]

theorem readString_ok {m : Members} {key s : String} :
    readString m key = .ok s ↔ Table.find? key m = some (.str s) := by
  unfold readString
  cases Table.find? key m with
  | none => exact ⟨fun h => (nomatch h), fun h => (nomatch h)⟩
  | some v => cases v <;> simp [Json.string?]

/-- The fields of an event are what its members hold. -/
theorem read_ok {m : Members} {f : EventFields} : read m = .ok f ↔
    readContent m = .ok f.content ∧ readStateKey m = .ok f.stateKey ∧
    readString m "room_id" = .ok f.roomId ∧ readString m "sender" = .ok f.sender ∧
    readString m "type" = .ok f.type ∧ readIds m "prev_events" = .ok f.prevEvents ∧
    readIds m "auth_events" = .ok f.authEvents ∧ readInteger m "depth" = .ok f.depth ∧
    readInteger m "origin_server_ts" = .ok f.timestamp := by
  unfold read
  simp only [bind_ok]
  constructor
  · rintro ⟨_, h₁, _, h₂, _, h₃, _, h₄, _, h₅, _, h₆, _, h₇, _, h₈, _, h₉, h⟩
    cases h
    exact ⟨h₁, h₂, h₃, h₄, h₅, h₆, h₇, h₈, h₉⟩
  · rintro ⟨h₁, h₂, h₃, h₄, h₅, h₆, h₇, h₈, h₉⟩
    exact ⟨_, h₁, _, h₂, _, h₃, _, h₄, _, h₅, _, h₆, _, h₇, _, h₈, _, h₉, rfl⟩

theorem onlyInvalid_readString (m : Members) (key : String) : OnlyInvalid (readString m key) := by
  unfold readString
  split
  · exact .ok _
  · exact .error _

theorem onlyInvalid_readInteger (m : Members) (key : String) : OnlyInvalid (readInteger m key) := by
  unfold readInteger
  split
  · exact .error _
  · split
    · exact .ok _
    · exact .error _

theorem onlyInvalid_readIds (m : Members) (key : String) : OnlyInvalid (readIds m key) := by
  unfold readIds
  split
  · exact .error _
  · split
    · exact .ok _
    · exact .error _

/-- What has not the fields of an event is an invalid one. -/
theorem onlyInvalid_read (m : Members) : OnlyInvalid (read m) := by
  have hcontent : OnlyInvalid (readContent m) := by
    unfold readContent
    split
    · exact .error _
    · exact .ok _
    · exact .error _
  have hkey : OnlyInvalid (readStateKey m) := by
    unfold readStateKey
    split
    · exact .ok _
    · exact .ok _
    · exact .error _
  unfold read
  refine hcontent.bind fun _ => hkey.bind fun _ => ?_
  refine (onlyInvalid_readString _ _).bind fun _ => (onlyInvalid_readString _ _).bind fun _ => ?_
  refine (onlyInvalid_readString _ _).bind fun _ => (onlyInvalid_readIds _ _).bind fun _ => ?_
  refine (onlyInvalid_readIds _ _).bind fun _ => (onlyInvalid_readInteger _ _).bind fun _ => ?_
  exact (onlyInvalid_readInteger _ _).bind fun _ => .ok _

end EventFields

/-! ## Hashes -/

/-- The bytes that are hashed and signed are those of the characters. -/
theorem Json.canonicalBytes_eq (v : Json) :
    v.canonicalBytes = (Canonical.write v).flatMap String.utf8EncodeChar := by
  rw [← Percent.bytes_eq]
  unfold Percent.bytes canonicalBytes canonical
  rw [Percent.toList_eq]

/-- The hash of a value, in a form that evaluates fast. -/
def hashBySliding (alphabet : Base64.Alphabet) (v : Json) : String :=
  let bytes := (Json.Canonical.write v).flatMap String.utf8EncodeChar
  Base64.encode alphabet (((Digest.chunks 64 (Digest.pad 64 8 bytes)).foldl
    Digest.Sha256.compressBySliding Digest.Sha256.initial).bytes)

theorem contentHash_eq (v : Json) :
    contentHash v = hashBySliding .standard (.obj (hashedMembers v)) := by
  unfold contentHash
  rw [Digest.Sha256.digest_eq, Json.canonicalBytes_eq]
  rfl

theorem eventId_eq (version : RoomVersion) (v : Json) : eventId version v =
    "$" ++ hashBySliding (idAlphabet version) (.obj (signedMembers (redact version v).membersD)) := by
  unfold eventId
  rw [Digest.Sha256.digest_eq, Json.canonicalBytes_eq]
  rfl

theorem contentHash_insert_hashes (v : Json) (m : Members) :
    contentHash (.obj (Table.insert "hashes" v m)) = contentHash (.obj m) := by
  unfold contentHash hashedMembers
  simp only [Json.membersD]
  rw [Table.erase_comm "hashes" "signatures", Table.erase_comm "hashes" "unsigned",
    Table.erase_insert, ← Table.erase_comm "hashes" "unsigned", ← Table.erase_comm "hashes"]

theorem contentHash_insert_signatures (v : Json) (m : Members) :
    contentHash (.obj (Table.insert "signatures" v m)) = contentHash (.obj m) := by
  unfold contentHash hashedMembers
  simp only [Json.membersD]
  rw [Table.erase_comm "signatures" "unsigned", Table.erase_insert,
    ← Table.erase_comm "signatures" "unsigned"]

/-- Neither signatures nor what servers add to an event count for what is signed of it. -/
theorem signedMembers_congr {m m' : Members} (hm : Table.Sorted m) (hm' : Table.Sorted m')
    (h : ∀ key, key ≠ "signatures" → key ≠ "unsigned" → Table.find? key m = Table.find? key m')
    (version : RoomVersion) :
    signedMembers (redactMembers version m) = signedMembers (redactMembers version m') := by
  unfold signedMembers
  -- both sides are ordered, so it is enough to compare what is found in them
  refine Table.Sorted.ext (((sorted_redactMembers hm version).erase _).erase _)
    (((sorted_redactMembers hm' version).erase _).erase _) fun key => ?_
  simp only [Table.find?_erase, find?_redactMembers, eventType]
  split
  · rfl
  · split
    · rfl
    · rename_i hu hs
      rw [h "content" (by decide) (by decide), h "type" (by decide) (by decide),
        h key (Ne.symm hs) (Ne.symm hu)]

/-- Nor do they count for its id. -/
theorem eventId_congr {m m' : Members} (hm : Table.Sorted m) (hm' : Table.Sorted m')
    (h : ∀ key, key ≠ "signatures" → key ≠ "unsigned" → Table.find? key m = Table.find? key m')
    (version : RoomVersion) : eventId version (.obj m) = eventId version (.obj m') := by
  unfold eventId
  simp only [redact, Json.membersD, signedMembers_congr hm hm' h]

/-- Nor for the hash of its content. -/
theorem contentHash_congr {m m' : Members} (hm : Table.Sorted m) (hm' : Table.Sorted m')
    (h : ∀ key, key ≠ "signatures" → key ≠ "unsigned" → Table.find? key m = Table.find? key m') :
    contentHash (.obj m) = contentHash (.obj m') := by
  have hsame : hashedMembers (.obj m) = hashedMembers (.obj m') := by
    unfold hashedMembers
    refine Table.Sorted.ext (((hm.erase _).erase _).erase _) (((hm'.erase _).erase _).erase _)
      fun key => ?_
    simp only [Json.membersD, Table.find?_erase]
    split
    · rfl
    · split
      · rfl
      · split
        · rfl
        · rename_i hs hu
          exact h key (Ne.symm hs) (Ne.symm hu)
  rw [contentHash, contentHash, hsame]

/-! ## Signing -/

theorem find?_insertSignature {key : String} (h : key ≠ "signatures") (m : Members)
    (serverName keyId signature : String) :
    Table.find? key (insertSignature m serverName keyId signature) = Table.find? key m :=
  Table.find?_insert_of_ne (Ne.symm h) _ _

theorem sorted_insertSignature {m : Members} (h : Table.Sorted m)
    (serverName keyId signature : String) :
    Table.Sorted (insertSignature m serverName keyId signature) :=
  h.insert _ _

theorem Json.Strict.membersOf {m : Members} (h : (Json.obj m).Strict) (key : String) :
    (Json.obj (membersOf (Table.find? key m))).Strict := by
  unfold Homeserver.membersOf
  cases hf : Table.find? key m with
  | none => exact strict_obj.mpr (by simp)
  | some v =>
    cases v with
    | obj members => exact h.find? hf
    | _ => exact strict_obj.mpr (by simp [members?])

theorem Json.Strict.insertSignature {m : Members} (h : (Json.obj m).Strict)
    (serverName keyId signature : String) :
    (Json.obj (insertSignature m serverName keyId signature)).Strict := by
  have hs := h.membersOf "signatures"
  exact h.insert (hs.insert ((hs.membersOf serverName).insert (strict_str _) _) _) _

theorem Json.Readable.membersOf {depth : Nat} {m : Members} (h : (Json.obj m).Readable (depth + 2))
    (key : String) : (Json.obj (membersOf (Table.find? key m))).Readable (depth + 1) := by
  unfold Homeserver.membersOf
  cases hf : Table.find? key m with
  | none => exact readable_obj.mpr ⟨Table.sorted_nil, by simp⟩
  | some v =>
    cases v with
    | obj members => exact h.find? hf
    | _ => exact readable_obj.mpr ⟨Table.sorted_nil, by simp [members?]⟩

theorem Json.Readable.insertSignature {depth : Nat} {m : Members}
    (h : (Json.obj m).Readable (depth + 3)) (serverName keyId signature : String) :
    (Json.obj (insertSignature m serverName keyId signature)).Readable (depth + 3) := by
  have hs := h.membersOf "signatures"
  exact h.insert (hs.insert ((hs.membersOf serverName).insert (readable_str _ _) _) _) _

/-- An event that is signed stays readable. -/
theorem Identity.readable_signEvent {depth : Nat} {u : UnsignedEvent}
    (h : (Json.obj u.proto).Readable (depth + 3)) (s : Identity) :
    (s.signEvent u).json.Readable (depth + 3) := by
  have hhash : (Json.obj [("sha256", .str (contentHash (.obj u.proto)))]).Readable (depth + 2) :=
    Json.readable_object [("sha256", _)] (by simp)
  exact (h.insert hhash "hashes").insertSignature _ _ _

/-- The signature of an event does not count for its id, but its content hash does. -/
theorem Identity.id_signEvent {u : UnsignedEvent} (h : Table.Sorted u.proto) (s : Identity)
    {hash : String} (hhash : contentHash (.obj u.proto) = hash) : (s.signEvent u).id =
      eventId u.version (.obj (Table.insert "hashes" (.obj [("sha256", .str hash)]) u.proto)) := by
  subst hhash
  have hhashed := h.insert "hashes" (.obj [("sha256", .str (contentHash (.obj u.proto)))])
  exact eventId_congr (sorted_insertSignature hhashed _ _ _) hhashed
    (fun _ hkey _ => find?_insertSignature hkey _ _ _ _) u.version

namespace Event

/-- An object is accepted as an event iff its fields can be read, it has signatures, it is strict
where the version asks for that, and it claims its own content hash. -/
theorem ofPdu_ok {version : RoomVersion} {m : Members} {e : Event} :
    ofPdu version (.obj m) = .ok e ↔ ∃ fields, EventFields.read m = .ok fields ∧
      (Table.find? "signatures" m).any Json.isObject = true ∧
      (version.strictJson = true → (Json.obj m).Strict) ∧
      claimedHash? m = some (contentHash (.obj m)) ∧
      e = ⟨eventId version (.obj m), version, fields, .obj m⟩ := by
  unfold ofPdu
  cases hf : EventFields.read m with
  | error err => simp [hf, bind, Except.bind]
  | ok fields =>
    simp only [hf, bind, Except.bind, pure, Except.pure, throw, throwThe, MonadExceptOf.throw,
      Except.ok.injEq, exists_eq_left']
    cases hs : (Table.find? "signatures" m).any Json.isObject with
    | false => simp
    | true =>
      cases hc : claimedHash? m with
      | none => simp
      | some claimed =>
        simp only [← Json.checkStrict_ok, Bool.not_true, Bool.false_eq_true, if_false, true_and,
          Option.some.injEq]
        -- the hash and the id count as they are, whatever they are made of
        generalize contentHash (.obj m) = hash
        generalize eventId version (.obj m) = id
        generalize (Json.obj m).checkStrict = strict
        cases version.strictJson <;> cases strict <;> by_cases hh : claimed = hash <;>
          simp [hh, Except.mapError, eq_comm]

/-- What is not accepted is an invalid event. -/
theorem onlyInvalid_ofPdu (version : RoomVersion) (pdu : Json) :
    OnlyInvalid (ofPdu version pdu) := by
  unfold ofPdu
  split
  · rename_i m
    have hstrict : OnlyInvalid ((Json.obj m).checkStrict.mapError fun e =>
        EventError.invalid (.ofNotStrict e)) := by
      cases (Json.obj m).checkStrict with
      | error e => exact .error _
      | ok _ => exact .ok _
    refine (EventFields.onlyInvalid_read m).bind fun fields => .refusing _ ?_
    cases claimedHash? m with
    | none => exact .error _
    | some claimed =>
      dsimp only
      split
      · exact hstrict.bind fun _ => .refusing _ (.ok _)
      · exact .refusing _ (.ok _)
  · exact .error _

/-- An accepted event stays the same event when only its signatures change, and what servers add to
it. -/
theorem ofPdu_congr {version : RoomVersion} {m m' : Members} {e : Event}
    (h : ofPdu version (.obj m) = .ok e) (hm : Table.Sorted m) (hm' : Table.Sorted m')
    (hsame : ∀ key, key ≠ "signatures" → key ≠ "unsigned" →
      Table.find? key m' = Table.find? key m)
    (hsigned : (Table.find? "signatures" m').any Json.isObject = true)
    (hstrict : version.strictJson = true → (Json.obj m').Strict) :
    ofPdu version (.obj m') = .ok { e with json := .obj m' } := by
  obtain ⟨fields, hread, -, -, hclaim, rfl⟩ := ofPdu_ok.mp h
  have hkeys : ∀ key ∈ EventFields.keys, key ≠ "signatures" ∧ key ≠ "unsigned" := by decide
  refine ofPdu_ok.mpr ⟨fields, ?_, hsigned, hstrict, ?_, ?_⟩
  · rw [EventFields.read_congr fun key hkey => hsame key (hkeys key hkey).1 (hkeys key hkey).2, hread]
  · unfold claimedHash? at hclaim ⊢
    rw [contentHash_congr hm' hm hsame, ← hclaim, hsame "hashes" (by decide) (by decide)]
  · rw [eventId_congr hm' hm hsame]

/-- The content hash covers neither itself nor the signatures. -/
theorem contentHash_signEvent (u : UnsignedEvent) (s : Identity) :
    contentHash (s.signEvent u).json = contentHash (.obj u.proto) :=
  (contentHash_insert_signatures _ _).trans (contentHash_insert_hashes _ _)

/-- A signed event names its hash, whatever hashes it had before. -/
theorem find?_hashes_signEvent (u : UnsignedEvent) (s : Identity) :
    Table.find? "hashes" (s.signEvent u).json.membersD =
      some (.obj [("sha256", .str (contentHash (s.signEvent u).json))]) := by
  rw [contentHash_signEvent]
  exact (find?_insertSignature (by decide) _ _ _ _).trans (Table.find?_insert_self _ _ _)

/-- A signed event with the fields of its JSON is accepted as it is, and only if it is strict where
its version asks for that. -/
theorem ofPdu_signEvent_of_read {u : UnsignedEvent} (h : EventFields.read u.proto = .ok u.fields)
    (s : Identity) {e : Event} : ofPdu u.version (s.signEvent u).json = .ok e ↔
      e = s.signEvent u ∧ (u.version.strictJson = true → (s.signEvent u).json.Strict) := by
  have hread : EventFields.read (s.signEvent u).json.membersD = .ok u.fields :=
    (EventFields.read_insert (by decide) _ _).trans
      ((EventFields.read_insert (by decide) _ _).trans h)
  constructor
  · intro he
    obtain ⟨fields, hfields, -, hstrict, -, rfl⟩ := ofPdu_ok.mp he
    cases hread.symm.trans hfields
    exact ⟨rfl, hstrict⟩
  · rintro ⟨rfl, hstrict⟩
    refine ofPdu_ok.mpr ⟨u.fields, hread, ?_, hstrict, ?_, rfl⟩
    · unfold insertSignature
      rw [Table.find?_insert_self]
      rfl
    · exact congrArg (fun v => (v.bind (·.get? "sha256")).bind Json.string?)
        (find?_hashes_signEvent u s)

/-- A strict event that is signed is accepted as it is. -/
theorem ofPdu_signEvent {u : UnsignedEvent} (hr : EventFields.read u.proto = .ok u.fields)
    (hs : u.version.strictJson = true → (Json.obj u.proto).Strict) (s : Identity) :
    ofPdu u.version (s.signEvent u).json = .ok (s.signEvent u) := by
  refine (ofPdu_signEvent_of_read hr s).mpr ⟨rfl, fun hv => ?_⟩
  refine ((hs hv).insert ?_ _).insertSignature _ _ _
  exact Json.strict_obj.mpr (by simp)

/-- Only objects are accepted. -/
theorem obj_of_ofPdu {version : RoomVersion} {pdu : Json} {e : Event}
    (h : ofPdu version pdu = .ok e) : ∃ m, pdu = .obj m := by
  cases pdu with
  | obj m => exact ⟨m, rfl⟩
  | _ => exact nomatch h

/-- A received event that is accepted is kept as it was received. -/
theorem json_of_ofPdu {version : RoomVersion} {pdu : Json} {e : Event}
    (h : ofPdu version pdu = .ok e) : e.json = pdu ∧ e.version = version := by
  obtain ⟨m, rfl⟩ := obj_of_ofPdu h
  obtain ⟨_, _, _, _, _, rfl⟩ := ofPdu_ok.mp h
  exact ⟨rfl, rfl⟩

end Event

end Homeserver
