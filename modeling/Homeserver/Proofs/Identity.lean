/-
Objects that several servers sign: what is signed does not depend on the signatures that are there
already, and setting one signature moves no other, so each signer is found and verified whoever
signs after it.
-/
import Homeserver.Identity
import Homeserver.Proofs.Bytes.Base64
import Homeserver.Proofs.Event.Signed
import Homeserver.Proofs.Json.Pointer

namespace Homeserver

/-! ## Signatures of an object -/

/-- What an object bears as the signature of a server under a key. It bears nothing where
signatures, or those of the server, are no object. -/
theorem path?_signatures (members : Members) (serverName keyId : String) :
    (Json.obj members).path? ["signatures", serverName, keyId] =
      Table.find? keyId (membersOf (Table.find? serverName
        (membersOf (Table.find? "signatures" members)))) := by
  rw [path?_membersOf, path?_membersOf, path?_singleton]

theorem path?_insertSignature_self (members : Members) (serverName keyId signature : String) :
    (Json.obj (insertSignature members serverName keyId signature)).path?
      ["signatures", serverName, keyId] = some (.str signature) := by
  rw [path?_signatures, insertSignature, Table.find?_insert_self]
  simp only [membersOf, Option.bind_some, Json.members?, Option.getD_some, Table.find?_insert_self]

/-- A signature stays when another server, or the same one under another key, signs. -/
theorem path?_insertSignature_of_ne {serverName keyId otherName otherId : String}
    (h : (otherName, otherId) ≠ (serverName, keyId)) (members : Members) (signature : String) :
    (Json.obj (insertSignature members serverName keyId signature)).path?
      ["signatures", otherName, otherId] =
      (Json.obj members).path? ["signatures", otherName, otherId] := by
  rw [path?_signatures, path?_signatures, insertSignature, Table.find?_insert_self]
  by_cases hname : serverName = otherName
  · subst hname
    have hid : keyId ≠ otherId := fun hid => h (by rw [hid])
    simp only [membersOf, Option.bind_some, Json.members?, Option.getD_some,
      Table.find?_insert_self, Table.find?_insert_of_ne hid]
  · simp only [membersOf, Option.bind_some, Json.members?, Option.getD_some,
      Table.find?_insert_of_ne hname]

theorem erase_insertSignature (members : Members) (serverName keyId signature : String) :
    Table.erase "signatures" (insertSignature members serverName keyId signature) =
      Table.erase "signatures" members :=
  Table.erase_insert _ _ _

theorem signedMembers_of_erase {members members' : Members}
    (h : Table.erase "signatures" members = Table.erase "signatures" members') :
    signedMembers members = signedMembers members' := by
  rw [signedMembers, signedMembers, h]

/-! ## One signer -/

theorem Ed25519.length_of_verify {key : PublicKey} {message signature : List UInt8}
    (h : verify key message signature = .ok ()) : signature.length = 64 := by
  unfold verify at h
  split at h
  · cases h
  · rename_i hlength
    exact Decidable.not_not.mp hlength

/-- The public half of a key accepts the signature that the secret half makes of some bytes. -/
def Ed25519.SecretKey.Attests (key : SecretKey) (payload : List UInt8) : Prop :=
  verify key.publicKey payload (sign key payload) = .ok ()

instance (key : Ed25519.SecretKey) (payload : List UInt8) : Decidable (key.Attests payload) :=
  inferInstanceAs (Decidable (_ = _))

/-- The bytes that are signed of an object. -/
def payloadOf (members : Members) : List UInt8 := (Json.obj (signedMembers members)).canonicalBytes

theorem signableBytes_obj (members : Members) :
    signableBytes (.obj members) = .ok (payloadOf members) := rfl

theorem Identity.signJson_obj (s : Identity) (members : Members) :
    s.signJson (.obj members) = .ok (.obj (insertSignature members s.serverName s.keyId
      (s.signBytes (payloadOf members)))) := rfl

/-- An object is accepted that bears the encoding of a signature of its payload. -/
theorem verifyJson_ok {members : Members} {serverName keyId : String} {key : Ed25519.PublicKey}
    {signature : List UInt8}
    (hborne : (Json.obj members).path? ["signatures", serverName, keyId] =
      some (.str (Base64.encode .standard signature)))
    (hverify : Ed25519.verify key (payloadOf members) signature = .ok ()) :
    verifyJson (.obj members) serverName keyId key = .ok () := by
  have hfound : (Json.obj members).pointer? (signaturePointer serverName keyId) =
      some (.str (Base64.encode .standard signature)) := by
    rw [signaturePointer, Json.pointer?_text]
    exact Json.walk?_of_path? hborne
  have hlength : ¬signature.length ≠ 64 := not_not.mpr (Ed25519.length_of_verify hverify)
  unfold verifyJson
  rw [hfound, signableBytes_obj]
  simp only [Option.bind_some, Json.string?, Base64.decode?_encode, if_neg hlength, bind,
    Except.bind, hverify]
  rfl

/-! ## Several signers -/

/-- The members of an object after these servers set their signatures of some bytes in turn. -/
def cosigned (payload : List UInt8) (signers : List Identity) (members : Members) : Members :=
  signers.foldl (fun m s => insertSignature m s.serverName s.keyId (s.signBytes payload)) members

theorem erase_cosigned (payload : List UInt8) (signers : List Identity) (members : Members) :
    Table.erase "signatures" (cosigned payload signers members) =
      Table.erase "signatures" members := by
  induction signers generalizing members with
  | nil => rfl
  | cons s signers ih => exact (ih _).trans (erase_insertSignature ..)

theorem payloadOf_cosigned (payload : List UInt8) (signers : List Identity) (members : Members) :
    payloadOf (cosigned payload signers members) = payloadOf members := by
  rw [payloadOf, payloadOf, signedMembers_of_erase (erase_cosigned payload signers members)]

/-- Servers that sign one after the other sign the same bytes. -/
theorem foldlM_signJson (signers : List Identity) (members : Members) :
    signers.foldlM (fun v s => s.signJson v) (.obj members) =
      .ok (.obj (cosigned (payloadOf members) signers members)) := by
  induction signers generalizing members with
  | nil => rfl
  | cons s signers ih =>
    have hpayload : payloadOf (insertSignature members s.serverName s.keyId
        (s.signBytes (payloadOf members))) = payloadOf members :=
      payloadOf_cosigned (payloadOf members) [s] members
    rw [List.foldlM_cons, Identity.signJson_obj]
    refine (ih _).trans ?_
    rw [hpayload]
    rfl

theorem path?_cosigned_of_notMem {payload : List UInt8} {signers : List Identity}
    {serverName keyId : String}
    (h : (serverName, keyId) ∉ signers.map fun s => (s.serverName, s.keyId)) (members : Members) :
    (Json.obj (cosigned payload signers members)).path? ["signatures", serverName, keyId] =
      (Json.obj members).path? ["signatures", serverName, keyId] := by
  induction signers generalizing members with
  | nil => rfl
  | cons s signers ih =>
    rw [List.map_cons, List.mem_cons, not_or] at h
    exact (ih h.2 _).trans (path?_insertSignature_of_ne h.1 _ _)

/-- Every signer's signature is there in the end, if no two sign under one name and key. -/
theorem path?_cosigned {payload : List UInt8} {signers : List Identity}
    (h : (signers.map fun s => (s.serverName, s.keyId)).Nodup) {s : Identity} (hs : s ∈ signers)
    (members : Members) :
    (Json.obj (cosigned payload signers members)).path? ["signatures", s.serverName, s.keyId] =
      some (.str (s.signBytes payload)) := by
  induction signers generalizing members with
  | nil => exact nomatch hs
  | cons first signers ih =>
    rw [List.map_cons, List.nodup_cons] at h
    rcases List.mem_cons.mp hs with rfl | hs
    · -- those who sign later sign under other names or keys
      exact (path?_cosigned_of_notMem h.1 _).trans (path?_insertSignature_self ..)
    · exact ih h.2 hs _

/-- Servers with different names or keys can sign an object in turn, whatever it holds. Each of
their signatures is then accepted under its key, all other signatures are as they were, and so is
every other member of the object. -/
theorem Identity.cosigned_verifies (members : Members) (signers : List Identity)
    (hnames : (signers.map fun s => (s.serverName, s.keyId)).Nodup)
    (hkeys : ∀ s ∈ signers, s.key.Attests (payloadOf members)) :
    ∃ signed, signers.foldlM (fun v s => s.signJson v) (.obj members) = .ok (.obj signed) ∧
      (∀ s ∈ signers, verifyJson (.obj signed) s.serverName s.keyId s.key.publicKey = .ok ()) ∧
      (∀ serverName keyId, (∀ s ∈ signers, (s.serverName, s.keyId) ≠ (serverName, keyId)) →
        (Json.obj signed).path? ["signatures", serverName, keyId] =
          (Json.obj members).path? ["signatures", serverName, keyId]) ∧
      Table.erase "signatures" signed = Table.erase "signatures" members := by
  refine ⟨_, foldlM_signJson signers members, fun s hs => ?_, fun serverName keyId hother => ?_,
    erase_cosigned _ signers members⟩
  · refine verifyJson_ok (path?_cosigned hnames hs members) ?_
    rw [payloadOf_cosigned]
    exact hkeys s hs
  · refine path?_cosigned_of_notMem (fun hmem => ?_) members
    obtain ⟨s, hs, hsame⟩ := List.mem_map.mp hmem
    exact hother s hs hsame

/-- Two servers with one key, whose names and key ids hold what a pointer has to escape. -/
def twoSigners : List Identity :=
  [⟨"a/b~1", "", ⟨List.replicate 32 7⟩⟩, ⟨"", "ed25519:~/", ⟨List.replicate 32 7⟩⟩]

/-- An object whose signatures of one of them are malformed, and which another server has signed. -/
def signedBefore : Members := [("a", .int 1),
  ("signatures", .obj [("a/b~1", .str ""), ("c", .obj [("ed25519:1", .str "AAAA")])]),
  ("unsigned", .null)]

theorem payloadOf_signedBefore :
    payloadOf signedBefore = [123, 34, 97, 34, 58, 49, 125] := by
  rw [payloadOf, Json.canonicalBytes_eq]
  decide +kernel

theorem twoSigners_attest : ∀ s ∈ twoSigners, s.key.Attests (payloadOf signedBefore) := by
  have hkey : Ed25519.SecretKey.Attests ⟨List.replicate 32 7⟩ (payloadOf signedBefore) := by
    rw [payloadOf_signedBefore]
    decide +kernel
  exact List.forall_mem_cons.mpr ⟨hkey, List.forall_mem_cons.mpr ⟨hkey, nofun⟩⟩

theorem Identity.cosigned_verifies_two :
    (twoSigners.map fun s => (s.serverName, s.keyId)).Nodup ∧
      (∀ s ∈ twoSigners, s.key.Attests (payloadOf signedBefore)) ∧
      ∃ signed,
        twoSigners.foldlM (fun v s => s.signJson v) (.obj signedBefore) = .ok (.obj signed) ∧
        (∀ s ∈ twoSigners,
          verifyJson (.obj signed) s.serverName s.keyId s.key.publicKey = .ok ()) ∧
        (∀ serverName keyId, (∀ s ∈ twoSigners, (s.serverName, s.keyId) ≠ (serverName, keyId)) →
          (Json.obj signed).path? ["signatures", serverName, keyId] =
            (Json.obj signedBefore).path? ["signatures", serverName, keyId]) ∧
        Table.erase "signatures" signed = Table.erase "signatures" signedBefore :=
  ⟨by decide, twoSigners_attest,
    Identity.cosigned_verifies signedBefore twoSigners (by decide) twoSigners_attest⟩

end Homeserver
