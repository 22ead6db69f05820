/-
What the id of an accepted event tells. The id is the hash of the redacted form, redaction keeps the
hashes, and an accepted event has the content hash that they name; so as long as no two of the byte
strings collide, the id tells every member but the signatures and what servers add.
-/
import Homeserver.Proofs.Bytes.Base64
import Homeserver.Proofs.Event.Proposal
import Homeserver.Proofs.Json.Canonical

namespace Homeserver

/-! ## Values in events -/

mutual

/-- Strict values hold no floating point number. -/
theorem Json.integral_of_strict : ∀ v : Json, v.Strict → v.Integral
  | .null, _ => trivial
  | .bool _, _ => trivial
  | .int n, h => by
    unfold Strict at h
    rw [firstUnsafe, isSafeInteger] at h
    cases hn : (Json.int n).int? with
    | none => rw [hn] at h; cases h
    | some k =>
      rw [int?] at hn
      split at hn
      · next hbounds =>
        have hsize : Int64.maxValue.toInt < UInt64.size := by decide
        exact ⟨hbounds.1, by omega⟩
      · cases hn
  | .double _, h => nomatch h
  | .str _, _ => trivial
  | .arr items, h => Json.integralItems_of_strict items (strict_arr.mp h)
  | .obj members, h => Json.integralMembers_of_strict members (strict_obj.mp h)

theorem Json.integralItems_of_strict : ∀ items : List Json, (∀ v ∈ items, v.Strict) →
    IntegralItems items
  | [], _ => trivial
  | v :: items, h =>
    have h := List.forall_mem_cons.mp h
    ⟨Json.integral_of_strict v h.1, Json.integralItems_of_strict items h.2⟩

theorem Json.integralMembers_of_strict : ∀ members : List (String × Json),
    (∀ row ∈ members, row.2.Strict) → IntegralMembers members
  | [], _ => trivial
  | (_, v) :: members, h =>
    have h := List.forall_mem_cons.mp h
    ⟨Json.integral_of_strict v h.1, Json.integralMembers_of_strict members h.2⟩

end

namespace Json.Readable

theorem filter {depth : Nat} {members : Members} (h : (Json.obj members).Readable (depth + 1))
    (p : String × Json → Bool) : (Json.obj (members.filter p)).Readable (depth + 1) := by
  rw [readable_obj] at h ⊢
  exact ⟨h.1.filter p, fun row hrow => h.2 row (List.mem_filter.mp hrow).1⟩

/-- The content of a redacted event is no deeper than it was, as the one object that is made anew
takes the place of the one that was there. -/
theorem redactedContent {depth : Nat} {content : Members}
    (h : (Json.obj content).Readable (depth + 2)) (version : RoomVersion) (type : String) :
    (Json.obj (Redaction.content version type content)).Readable (depth + 2) := by
  by_cases hw : Redaction.KeepsWhole version type
  · rw [Redaction.content_of_whole hw]
    exact h
  · cases hsigned : Redaction.signedInvite? version type content with
    | none =>
      rw [Redaction.content_of_unsigned hw hsigned]
      exact h.filter _
    | some signed =>
      rw [Redaction.content_of_signed hw hsigned]
      have hpath := (Redaction.signedInvite?_eq_some.mp hsigned).2
      rw [path?_membersOf, path?_singleton] at hpath
      have hreadable : signed.Readable depth := (h.membersOf _).find? hpath
      refine (h.filter _).insert (readable_obj.mpr ⟨?_, ?_⟩) _
      · exact Table.sorted_cons.mpr ⟨by simp, Table.sorted_nil⟩
      · simpa using hreadable

theorem redactMembers {depth : Nat} {m : Members} (h : (Json.obj m).Readable (depth + 3))
    (version : RoomVersion) : (Json.obj (redactMembers version m)).Readable (depth + 3) := by
  exact (h.filter _).insert ((h.membersOf "content").redactedContent version _) _

/-- The bytes of an object tell its members. -/
theorem members_inj {depth depth' : Nat} {m m' : Members} (h : (Json.obj m).Readable depth)
    (h' : (Json.obj m').Readable depth')
    (hbytes : (Json.obj m).canonicalBytes = (Json.obj m').canonicalBytes) : m = m' :=
  Json.obj.inj ((canonicalBytes_inj ⟨h.ordered, h.integral⟩ ⟨h'.ordered, h'.integral⟩).mp hbytes)

end Json.Readable

/-! ## Equal hashes -/

/-- The two byte strings have different digests unless they are one. -/
def Digest.Sha256.Distinguishes (x y : List UInt8) : Prop := digest x = digest y → x = y

/-- The bytes of which the id of an event is the hash. -/
def signedBytes (version : RoomVersion) (event : Json) : List UInt8 :=
  (Json.obj (signedMembers (redact version event).membersD)).canonicalBytes

/-- A signature does not change what is signed. -/
theorem signedBytes_insertSignature {m : Members} (h : Table.Sorted m) (version : RoomVersion)
    (serverName keyId signature : String) :
    signedBytes version (.obj (insertSignature m serverName keyId signature)) =
      signedBytes version (.obj m) :=
  congrArg (fun m => (Json.obj m).canonicalBytes) (signedMembers_congr
    (sorted_insertSignature h _ _ _) h (fun _ hkey _ => find?_insertSignature hkey _ _ _ _) version)

/-- The bytes that the content hash covers. -/
def hashedBytes (event : Json) : List UInt8 := (Json.obj (hashedMembers event)).canonicalBytes

theorem signedBytes_of_eventId {version : RoomVersion} {a b : Json}
    (h : eventId version a = eventId version b)
    (hdistinct : Digest.Sha256.Distinguishes (signedBytes version a) (signedBytes version b)) :
    signedBytes version a = signedBytes version b := by
  have htext := congrArg String.toList h
  unfold eventId at htext
  rw [String.toList_append, String.toList_append, List.append_cancel_left_eq, String.toList_inj,
    Base64.encode_inj] at htext
  exact hdistinct htext

theorem hashedBytes_of_contentHash {a b : Json} (h : contentHash a = contentHash b)
    (hdistinct : Digest.Sha256.Distinguishes (hashedBytes a) (hashedBytes b)) :
    hashedBytes a = hashedBytes b :=
  hdistinct ((Base64.encode_inj .standard).mp h)

/-! ## What an id tells -/

/-- What is signed of an event tells the hashes that it names. -/
theorem hashes_of_signedMembers {version : RoomVersion} {m m' : Members}
    (h : signedMembers (redactMembers version m) = signedMembers (redactMembers version m')) :
    Table.find? "hashes" m = Table.find? "hashes" m' := by
  have hfind : ∀ m : Members, Table.find? "hashes" (signedMembers (redactMembers version m)) =
      Table.find? "hashes" m := by
    intro m
    unfold signedMembers
    rw [Table.find?_erase, if_neg (by decide), Table.find?_erase, if_neg (by decide),
      find?_redactMembers, if_neg (by decide), if_pos (keeps_hashes version)]
  rw [← hfind, h, hfind]

/-- What is found under a key that the content hash covers. -/
theorem find?_hashedMembers {key : String} (hs : key ≠ "signatures") (hu : key ≠ "unsigned")
    (hh : key ≠ "hashes") (m : Members) :
    Table.find? key (hashedMembers (.obj m)) = Table.find? key m := by
  unfold hashedMembers Json.membersD
  rw [Table.find?_erase, if_neg (Ne.symm hh), Table.find?_erase, if_neg (Ne.symm hs),
    Table.find?_erase, if_neg (Ne.symm hu)]

/-- The id of an accepted event tells all its members but the signatures and what servers add to it,
also those that redaction drops. -/
theorem Event.ofPdu_determined {version : RoomVersion} {a b : Json} {e f : Event}
    (ha : ofPdu version a = .ok e) (hb : ofPdu version b = .ok f) (hid : e.id = f.id)
    (hordered : a.Ordered ∧ b.Ordered)
    (hnumbers : version.strictJson = false → a.Integral ∧ b.Integral)
    (hsigned : Digest.Sha256.Distinguishes (signedBytes version a) (signedBytes version b))
    (hhashed : Digest.Sha256.Distinguishes (hashedBytes a) (hashedBytes b)) :
    ∀ key, key ≠ "signatures" → key ≠ "unsigned" → a.get? key = b.get? key := by
  obtain ⟨m, rfl⟩ := obj_of_ofPdu ha
  obtain ⟨m', rfl⟩ := obj_of_ofPdu hb
  obtain ⟨_, -, -, hstrict, hclaim, rfl⟩ := ofPdu_ok.mp ha
  obtain ⟨_, -, -, hstrict', hclaim', rfl⟩ := ofPdu_ok.mp hb
  have hintegral : (Json.obj m).Integral ∧ (Json.obj m').Integral := by
    cases hversion : version.strictJson with
    | false => exact hnumbers hversion
    | true => exact ⟨Json.integral_of_strict _ (hstrict hversion),
        Json.integral_of_strict _ (hstrict' hversion)⟩
  have hreadable : (Json.obj m).Readable ((Json.obj m).nesting + 3) :=
    ⟨hordered.1, hintegral.1, Nat.le_add_right _ _⟩
  have hreadable' : (Json.obj m').Readable ((Json.obj m').nesting + 3) :=
    ⟨hordered.2, hintegral.2, Nat.le_add_right _ _⟩
  -- the id tells the redacted event, in which the hashes are kept
  have hredacted : signedMembers (redactMembers version m) =
      signedMembers (redactMembers version m') := by
    have hbytes := signedBytes_of_eventId hid hsigned
    have hr := ((hreadable.redactMembers version).erase "signatures").erase "unsigned"
    have hr' := ((hreadable'.redactMembers version).erase "signatures").erase "unsigned"
    exact hr.members_inj hr' hbytes
  have hhashes := hashes_of_signedMembers hredacted
  -- and the hashes tell the event
  have hcontent : hashedMembers (.obj m) = hashedMembers (.obj m') := by
    have hequal : contentHash (.obj m) = contentHash (.obj m') := by
      unfold claimedHash? at hclaim hclaim'
      rw [hhashes, hclaim'] at hclaim
      exact (Option.some.inj hclaim).symm
    have hbytes := hashedBytes_of_contentHash hequal hhashed
    have hr := ((hreadable.erase "unsigned").erase "signatures").erase "hashes"
    have hr' := ((hreadable'.erase "unsigned").erase "signatures").erase "hashes"
    exact hr.members_inj hr' hbytes
  intro key hs hu
  show Table.find? key m = Table.find? key m'
  by_cases hh : key = "hashes"
  · rw [hh, hhashes]
  · rw [← find?_hashedMembers hs hu hh, hcontent, find?_hashedMembers hs hu hh]

/-! ## What servers add -/

theorem find?_insert_unsigned (v : Json) (m : Members) : ∀ key, key ≠ "signatures" →
    key ≠ "unsigned" → Table.find? key (Table.insert "unsigned" v m) = Table.find? key m :=
  fun _ _ hu => Table.find?_insert_of_ne (Ne.symm hu) v m

/-- An accepted event stays the same event when a server adds to it. -/
theorem Event.ofPdu_insert_unsigned {version : RoomVersion} {m : Members} {e : Event}
    (h : ofPdu version (.obj m) = .ok e) (hm : Table.Sorted m) {v : Json}
    (hv : version.strictJson = true → v.Strict) :
    ofPdu version (.obj (Table.insert "unsigned" v m)) =
      .ok { e with json := .obj (Table.insert "unsigned" v m) } := by
  obtain ⟨_, -, hsigned, hstrict, -, -⟩ := ofPdu_ok.mp h
  refine ofPdu_congr h hm (hm.insert _ _) (find?_insert_unsigned v m) ?_ fun hs =>
    (hstrict hs).insert (hv hs) _
  rw [Table.find?_insert_of_ne (by decide)]
  exact hsigned

/-- A message whose body redaction drops. -/
def greeting : UnsignedEvent :=
  let fields : EventFields :=
    ⟨"!r:a", "@u:a", "m.room.message", none, .obj [("body", .str "hi")], [], [], 1, 1⟩
  ⟨.v5, fields, Room.protoOf .v5 fields "a"⟩

/-- The members of the message as it is signed. -/
def signedGreeting : Members :=
  (Identity.signEvent ⟨"a", "ed25519:1", ⟨List.replicate 32 11⟩⟩ greeting).json.membersD

theorem readable_signedGreeting : (Json.obj signedGreeting).Readable 3 := by
  have hbody : (Json.obj [("body", .str "hi")]).Readable 2 :=
    Json.readable_object [("body", _)] (by simp)
  have hone : (Json.int 1).Readable 2 := Json.readable_of_safe (by unfold Json.Safe; decide) 2
  have hproto : (Json.obj greeting.proto).Readable 3 :=
    Room.readable_protoOf (f := greeting.fields) hbody hone hone .v5 "a"
  exact Identity.readable_signEvent hproto _

/-- The message and a copy to which a server has added are accepted with one id, and they agree in
the content, of which redaction drops the body. -/
theorem Event.ofPdu_determined_greeting :
    let copy := Json.obj (Table.insert "unsigned" (.obj []) signedGreeting)
    ∃ e f, ofPdu .v5 (.obj signedGreeting) = .ok e ∧ ofPdu .v5 copy = .ok f ∧ e.id = f.id ∧
      (Json.obj signedGreeting).get? "content" = copy.get? "content" := by
  intro copy
  have hreadable := readable_signedGreeting
  have hreadable' := hreadable.insert (v := .obj []) ⟨⟨Table.sorted_nil, trivial⟩, trivial, by decide⟩
    "unsigned"
  have haccepted : ofPdu .v5 (.obj signedGreeting) = .ok _ :=
    ofPdu_signEvent (u := greeting) rfl (fun _ => rfl) _
  have hsorted := (Json.readable_obj.mp hreadable).1
  have hcopied := ofPdu_insert_unsigned (v := .obj []) haccepted hsorted fun h => nomatch h
  refine ⟨_, _, haccepted, hcopied, rfl, ofPdu_determined haccepted hcopied rfl
    ⟨hreadable.ordered, hreadable'.ordered⟩ (fun _ => ⟨hreadable.integral, hreadable'.integral⟩)
    (fun _ => ?_) (fun _ => ?_) "content" (by decide) (by decide)⟩
  · have hsame := signedMembers_congr hsorted (hsorted.insert "unsigned" (.obj []))
      (fun key hs hu => (find?_insert_unsigned _ _ key hs hu).symm) .v5
    unfold signedBytes redact Json.membersD
    rw [hsame]
  · unfold hashedBytes hashedMembers Json.membersD
    rw [Table.erase_insert]

end Homeserver
