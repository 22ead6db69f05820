/-
Events that further servers sign. Each of them signs the redacted event and sets its signature in
the whole one. What is signed, the id, the hash of the content and the fields leave the signatures
out, so every server signs the same bytes, and what they leave behind is the same event.
-/
import Homeserver.Proofs.Event.Identifier
import Homeserver.Proofs.Identity

namespace Homeserver

/-! ## Members -/

section

variable {payload : List UInt8} {signers : List Identity} {m : Members}

/-- What setting a signature keeps is kept when several servers do. -/
theorem cosigned_induction {P : Members → Prop} (h : P m)
    (step : ∀ m serverName keyId signature, P m →
      P (insertSignature m serverName keyId signature)) : P (cosigned payload signers m) := by
  induction signers generalizing m with
  | nil => exact h
  | cons s signers ih => exact ih (step m _ _ _ h)

theorem sorted_cosigned (h : Table.Sorted m) : Table.Sorted (cosigned payload signers m) :=
  cosigned_induction h fun _ _ _ _ h => sorted_insertSignature h _ _ _

theorem strict_cosigned (h : (Json.obj m).Strict) :
    (Json.obj (cosigned payload signers m)).Strict :=
  cosigned_induction (P := fun m => (Json.obj m).Strict) h fun _ _ _ _ h => h.insertSignature _ _ _

theorem readable_cosigned {depth : Nat} (h : (Json.obj m).Readable (depth + 3)) :
    (Json.obj (cosigned payload signers m)).Readable (depth + 3) :=
  cosigned_induction (P := fun m => (Json.obj m).Readable (depth + 3)) h
    fun _ _ _ _ h => h.insertSignature _ _ _

/-- However odd the signatures are, they are an object afterwards if they were one. -/
theorem isObject_signatures_cosigned (h : (Table.find? "signatures" m).any Json.isObject = true) :
    (Table.find? "signatures" (cosigned payload signers m)).any Json.isObject = true := by
  refine cosigned_induction (P := fun m => (Table.find? "signatures" m).any Json.isObject = true) h
    fun m _ _ _ _ => ?_
  unfold insertSignature
  rw [Table.find?_insert_self]
  rfl

theorem find?_cosigned {key : String} (h : key ≠ "signatures") :
    Table.find? key (cosigned payload signers m) = Table.find? key m :=
  cosigned_induction (P := fun m' => Table.find? key m' = Table.find? key m) rfl
    fun m' _ _ _ hm' => (find?_insertSignature h m' _ _ _).trans hm'

end

/-! ## Events -/

namespace Event

/-- An event is what another one is after further servers signed it: the same event, read from JSON
that differs only in the signatures. -/
structure Cosigned (e f : Event) : Prop where
  accepted : ofPdu f.version f.json = .ok f
  id : f.id = e.id
  version : f.version = e.version
  fields : f.fields = e.fields
  hash : (f.json.get? "hashes").bind (·.get? "sha256") = some (.str (contentHash f.json))
  others : Table.erase "signatures" f.json.membersD = Table.erase "signatures" e.json.membersD

/-- An accepted event names its content hash. -/
theorem hash_of_ofPdu {version : RoomVersion} {m : Members} {e : Event}
    (h : ofPdu version (.obj m) = .ok e) :
    ((Json.obj m).get? "hashes").bind (·.get? "sha256") = some (.str (contentHash (.obj m))) := by
  obtain ⟨_, -, -, -, hclaim, -⟩ := ofPdu_ok.mp h
  obtain ⟨claimed, hfound, hclaimed⟩ := Option.bind_eq_some_iff.mp hclaim
  cases claimed with
  | str text =>
    cases hclaimed
    exact hfound
  | _ => cases hclaimed

theorem addSignature_ok {e : Event} {m : Members} (h : e.json = .obj m) (s : Identity) :
    e.addSignature s = .ok { e with
      json := .obj (insertSignature m s.serverName s.keyId
        (s.signBytes (signedBytes e.version (.obj m)))) } := by
  unfold addSignature
  rw [h]
  rfl

/-- Servers that sign an event one after the other sign the same bytes. -/
theorem foldlM_addSignature {e : Event} {m : Members} (h : e.json = .obj m) (hm : Table.Sorted m)
    (signers : List Identity) : signers.foldlM (fun f s => f.addSignature s) e =
      .ok { e with json := .obj (cosigned (signedBytes e.version (.obj m)) signers m) } := by
  induction signers generalizing e m with
  | nil =>
    show Except.ok e = _
    rw [cosigned, List.foldl_nil, ← h]
  | cons s signers ih =>
    rw [List.foldlM_cons, addSignature_ok h]
    refine (ih rfl (sorted_insertSignature hm _ _ _)).trans ?_
    dsimp only
    rw [signedBytes_insertSignature hm]
    rfl

/-- Whoever signs an accepted event, it stays the event that was accepted. -/
theorem cosigned_of_ofPdu {version : RoomVersion} {m : Members} {e : Event}
    (h : ofPdu version (.obj m) = .ok e) (hm : Table.Sorted m) (signers : List Identity) :
    ∃ f, signers.foldlM (fun f s => f.addSignature s) e = .ok f ∧ e.Cosigned f ∧
      f.json = .obj (cosigned (signedBytes version (.obj m)) signers m) := by
  obtain ⟨hjson, rfl⟩ := json_of_ofPdu h
  obtain ⟨_, -, hsigned, hstrict, -, -⟩ := ofPdu_ok.mp h
  generalize hpayload : signedBytes e.version (.obj m) = payload
  have haccepted : ofPdu e.version (.obj (cosigned payload signers m)) =
      .ok { e with json := .obj (cosigned payload signers m) } :=
    ofPdu_congr h hm (sorted_cosigned hm) (fun _ hs _ => find?_cosigned hs)
      (isObject_signatures_cosigned hsigned) fun hs => strict_cosigned (hstrict hs)
  have hrun := foldlM_addSignature hjson hm signers
  rw [hpayload] at hrun
  refine ⟨_, hrun, ⟨haccepted, rfl, rfl, rfl, ?_, ?_⟩, rfl⟩
  · exact hash_of_ofPdu haccepted
  · rw [hjson]
    exact erase_cosigned _ signers m

end Event

end Homeserver
