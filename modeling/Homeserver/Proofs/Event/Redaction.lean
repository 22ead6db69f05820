/-
Redaction as a projection. What it keeps of an event is told by the event's type and content, both
of which it keeps as it reads them; so it changes nothing the second time, and neither the id of an
event nor a signature of it tells how often it was redacted.
-/
import Homeserver.Identity
import Homeserver.Proofs.Table

namespace Homeserver

/-! ## Paths -/

theorem path?_singleton (m : Members) (key : String) :
    (Json.obj m).path? [key] = Table.find? key m :=
  Option.bind_fun_some _

/-- A path leads into a member as into an object, as there is no way into anything else. -/
theorem path?_membersOf (m : Members) (key next : String) (rest : List String) :
    (Json.obj m).path? (key :: next :: rest) =
      (Json.obj (membersOf (Table.find? key m))).path? (next :: rest) := by
  show (Table.find? key m).bind (fun v => v.path? (next :: rest)) = _
  rcases Table.find? key m with _ | v
  · rfl
  · cases v <;> rfl

/-! ## Content -/

namespace Redaction

/-- All of the content is kept. -/
def KeepsWhole (version : RoomVersion) (type : String) : Prop :=
  type = "m.room.create" ∧ version.updatedRedaction = true

instance (version : RoomVersion) (type : String) : Decidable (KeepsWhole version type) :=
  inferInstanceAs (Decidable (_ ∧ _))

variable {version : RoomVersion} {type : String}

theorem content_of_whole (h : KeepsWhole version type) (c : Members) :
    content version type c = c :=
  if_pos h

theorem content_of_signed (h : ¬KeepsWhole version type) {c : Members} {signed : Json}
    (hs : signedInvite? version type c = some signed) : content version type c =
      Table.insert "third_party_invite" (.obj [("signed", signed)])
        (c.filter fun m => m.1 ∈ keptContent version type) := by
  refine (if_neg h).trans ?_
  rw [hs]

theorem content_of_unsigned (h : ¬KeepsWhole version type) {c : Members}
    (hs : signedInvite? version type c = none) :
    content version type c = c.filter fun m => m.1 ∈ keptContent version type := by
  refine (if_neg h).trans ?_
  rw [hs]

theorem signedInvite?_eq_some {c : Members} {signed : Json} :
    signedInvite? version type c = some signed ↔
      (type = "m.room.member" ∧ version.updatedRedaction = true) ∧
        (Json.obj c).path? ["third_party_invite", "signed"] = some signed := by
  have hpath : (Json.obj c).path? ["third_party_invite", "signed"] =
      (Table.find? "third_party_invite" c).bind (·.get? "signed") :=
    Option.bind_congr fun _ _ => Option.bind_fun_some _
  rw [hpath, signedInvite?, ite_eq_iff]
  simp

/-- No rule keeps third party invites whole. -/
theorem thirdPartyInvite_notMem (version : RoomVersion) (type : String) :
    "third_party_invite" ∉ keptContent version type := by
  unfold keptContent
  split_ifs <;> decide

/-- Memberships are no creations. -/
theorem not_keepsWhole_of_signed {c : Members} {signed : Json}
    (h : signedInvite? version type c = some signed) : ¬KeepsWhole version type := by
  obtain ⟨⟨rfl, -⟩, -⟩ := signedInvite?_eq_some.mp h
  exact fun hw => absurd hw.1 (by decide)

theorem find?_keptContent (key : String) (c : Members) :
    Table.find? key (c.filter fun m => m.1 ∈ keptContent version type) =
      if key ∈ keptContent version type then Table.find? key c else none := by
  rw [Table.find?_filter (fun k => decide (k ∈ keptContent version type))]
  simp

/-- The signed part of a third party invite is the one of the invite that is left. -/
theorem signedInvite?_content (c : Members) :
    signedInvite? version type (content version type c) = signedInvite? version type c := by
  cases hs : signedInvite? version type c with
  | some signed =>
    have hrules := (signedInvite?_eq_some.mp hs).1
    rw [content_of_signed (not_keepsWhole_of_signed hs) hs, signedInvite?, if_pos hrules,
      Table.find?_insert_self]
    rfl
  | none =>
    by_cases hw : KeepsWhole version type
    · rw [content_of_whole hw, hs]
    · rw [content_of_unsigned hw hs, signedInvite?, find?_keptContent,
        if_neg (thirdPartyInvite_notMem version type)]
      exact ite_self _

theorem content_content (c : Members) :
    content version type (content version type c) = content version type c := by
  by_cases hw : KeepsWhole version type
  · exact content_of_whole hw _
  · have hsame : signedInvite? version type (content version type c) =
        signedInvite? version type c := signedInvite?_content c
    have htwice : (c.filter fun m => m.1 ∈ keptContent version type).filter
        (fun m => m.1 ∈ keptContent version type) =
        c.filter fun m => m.1 ∈ keptContent version type :=
      List.filter_filter.trans (List.filter_congr fun _ _ => Bool.and_self _)
    cases hs : signedInvite? version type c with
    | none =>
      rw [content_of_unsigned hw (hsame.trans hs), content_of_unsigned hw hs, htwice]
    | some signed =>
      rw [content_of_signed hw (hsame.trans hs), content_of_signed hw hs,
        Table.filter_insert (p := fun k => decide (k ∈ keptContent version type))
          (decide_eq_false (thirdPartyInvite_notMem version type)), htwice]

/-- What is found in a redacted content was there before, or was the signed part of the third party
invite that was there. -/
theorem find?_content {c : Members} {key : String} {v : Json}
    (h : Table.find? key (content version type c) = some v) :
    if key = "third_party_invite" ∧ ¬KeepsWhole version type then
      ∃ signed, (Json.obj c).path? [key, "signed"] = some signed ∧ v = .obj [("signed", signed)]
    else Table.find? key c = some v := by
  by_cases hw : KeepsWhole version type
  · rw [if_neg fun hi => hi.2 hw]
    rwa [content_of_whole hw] at h
  · cases hs : signedInvite? version type c with
    | none =>
      rw [content_of_unsigned hw hs, find?_keptContent] at h
      obtain ⟨hk, hv⟩ := Option.ite_none_right_eq_some.mp h
      have hkey : key ≠ "third_party_invite" :=
        fun he => thirdPartyInvite_notMem version type (he ▸ hk)
      rw [if_neg fun hi => hkey hi.1]
      exact hv
    | some signed =>
      rw [content_of_signed hw hs, Table.find?_insert] at h
      by_cases hk : key = "third_party_invite"
      · subst hk
        rw [if_pos rfl] at h
        rw [if_pos ⟨rfl, hw⟩]
        exact ⟨signed, (signedInvite?_eq_some.mp hs).2, (Option.some.inj h).symm⟩
      · rw [if_neg (Ne.symm hk), find?_keptContent] at h
        rw [if_neg fun hi => hk hi.1]
        exact (Option.ite_none_right_eq_some.mp h).2

end Redaction

/-! ## Events -/

theorem keeps_hashes (version : RoomVersion) : Redaction.keeps version "hashes" = true := by
  cases version <;> decide

theorem keeps_signatures (version : RoomVersion) : Redaction.keeps version "signatures" = true := by
  cases version <;> decide

theorem keeps_type (version : RoomVersion) : Redaction.keeps version "type" = true := by
  cases version <;> decide

theorem sorted_redactMembers {m : Members} (h : Table.Sorted m) (version : RoomVersion) :
    Table.Sorted (redactMembers version m) :=
  Table.Sorted.insert (h.filter _) _ _

theorem find?_redactMembers (version : RoomVersion) (m : Members) (key : String) :
    Table.find? key (redactMembers version m) =
      if "content" = key then
        some (.obj (Redaction.content version (eventType m)
          (((Table.find? "content" m).bind Json.members?).getD [])))
      else if Redaction.keeps version key then Table.find? key m else none := by
  unfold redactMembers
  rw [Table.find?_insert]
  by_cases h : "content" = key
  · rw [if_pos h, if_pos h]
  · rw [if_neg h, if_neg h,
      Table.find?_filter (fun k => Redaction.keeps version k && decide (k ≠ "content"))]
    simp [Ne.symm h]

theorem eventType_redactMembers (version : RoomVersion) (m : Members) :
    eventType (redactMembers version m) = eventType m := by
  unfold eventType
  rw [find?_redactMembers, if_neg (by decide), if_pos (keeps_type version)]

theorem redactMembers_redactMembers (version : RoomVersion) (m : Members) :
    redactMembers version (redactMembers version m) = redactMembers version m := by
  have hcontent := find?_redactMembers version m "content"
  rw [if_pos rfl] at hcontent
  rw [redactMembers, hcontent, eventType_redactMembers]
  simp only [Option.bind_some, Json.members?, Option.getD_some, Redaction.content_content]
  rw [redactMembers, Table.filter_insert
    (p := fun k => Redaction.keeps version k && decide (k ≠ "content")) (by simp), List.filter_filter]
  simp only [Bool.and_self]

theorem redact_redact (version : RoomVersion) (e : Json) :
    redact version (redact version e) = redact version e := by
  cases e with
  | obj m => exact congrArg Json.obj (redactMembers_redactMembers version m)
  | _ => rfl

/-- What redaction leaves of an event: the members that the rules keep, as they are, and a content in
which there is nothing but members of the event's content, as they are. Of a third party invite only
the signed part is left, unless the rules keep all of the content. -/
structure Redacts (version : RoomVersion) (event redacted : Json) : Prop where
  members : ∀ key, key ≠ "content" →
    redacted.get? key = if Redaction.keeps version key then event.get? key else none
  content : ∃ content, redacted.get? "content" = some (.obj content) ∧
    ∀ key v, Table.find? key content = some v →
      if key = "third_party_invite" ∧ ¬Redaction.KeepsWhole version (eventType event.membersD) then
        ∃ signed, event.path? ["content", key, "signed"] = some signed ∧
          v = .obj [("signed", signed)]
      else event.path? ["content", key] = some v

theorem redacts_redact (version : RoomVersion) (m : Members) :
    Redacts version (.obj m) (redact version (.obj m)) where
  members key hkey := (find?_redactMembers version m key).trans (if_neg (Ne.symm hkey))
  content := by
    refine ⟨_, (find?_redactMembers version m "content").trans (if_pos rfl), fun key v hv => ?_⟩
    rw [path?_membersOf m "content" key ["signed"], path?_membersOf m "content" key [],
      path?_singleton]
    exact Redaction.find?_content hv

/-- Redaction is a projection that keeps the id of an event and its signatures, and it only leaves
out. -/
theorem redact_projection (version : RoomVersion) :
    (∀ e, redact version (redact version e) = redact version e) ∧ ∀ m : Members,
      eventId version (redact version (.obj m)) = eventId version (.obj m) ∧
      (∀ serverName keyId key,
        verifyJson (redact version (.obj m)) serverName keyId key = .ok () →
          verifyJson (redact version (redact version (.obj m))) serverName keyId key = .ok ()) ∧
      Redacts version (.obj m) (redact version (.obj m)) := by
  refine ⟨redact_redact version, fun m => ⟨?_, fun serverName keyId key h => ?_, ?_⟩⟩
  · rw [eventId, redact_redact]
    rfl
  · rwa [redact_redact]
  · exact redacts_redact version m

/-- A creation whose content has a third party invite. -/
def invitingCreation : Json :=
  .obj [("content", .obj [("third_party_invite",
    .obj [("display_name", .str "x"), ("signed", .obj [])])]), ("type", .str "m.room.create")]

/-- By the rules of version 11 a creation keeps more of a third party invite than its signed part. -/
theorem redact_keeps_invite : ¬∀ version m invite,
    (redact version (.obj m)).path? ["content", "third_party_invite"] = some invite →
      ∃ signed, invite = .obj [("signed", signed)] := by
  intro h
  obtain ⟨signed, hsigned⟩ := h .v11 invitingCreation.membersD _ rfl
  simp at hsigned

end Homeserver
