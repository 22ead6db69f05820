/-
Percent encoding read back: what is encoded stands for the bytes of the text, and bytes of ASCII
for their characters.
-/
import Homeserver.Net.Percent

namespace Homeserver.Percent

/-! ## Bytes of a text -/

theorem toList_loop (bs : ByteArray) (i : Nat) (done : List UInt8) :
    ByteArray.toList.loop bs i done = done.reverse ++ bs.data.toList.drop i := by
  rw [ByteArray.toList.loop]
  split
  · next h =>
    have hi : i < bs.data.toList.length := h
    have hget : bs.get! i = bs.data.toList[i] := getElem!_pos bs.data i h
    rw [toList_loop bs (i + 1), hget, List.reverse_cons, List.append_assoc,
      List.drop_eq_getElem_cons hi]
    rfl
  · next h =>
    have hi : bs.data.toList.length ≤ i := Nat.le_of_not_lt h
    rw [List.drop_eq_nil_of_le hi, List.append_nil]
termination_by bs.size - i

theorem toList_eq (bs : ByteArray) : bs.toList = bs.data.toList := toList_loop bs 0 []

theorem bytes_eq (s : List Char) : bytes s = s.flatMap String.utf8EncodeChar := by
  unfold bytes
  rw [toList_eq, String.toUTF8_eq_toByteArray, String.toByteArray_ofList, List.utf8Encode,
    List.toList_data_toByteArray]

theorem toList_singleton (c : Char) :
    (String.singleton c).toUTF8.toList = String.utf8EncodeChar c := by
  rw [toList_eq, String.toUTF8_eq_toByteArray, String.toByteArray_singleton,
    List.utf8Encode_singleton, List.toList_data_toByteArray]

theorem bytes_append (s t : List Char) : bytes (s ++ t) = bytes s ++ bytes t := by
  rw [bytes_eq, bytes_eq, bytes_eq, List.flatMap_append]

/-- The text of some bytes is the one that has them. -/
theorem text?_bytes (s : List Char) : text? (bytes s) = some (String.ofList s) := by
  have hbytes : (⟨(bytes s).toArray⟩ : ByteArray) = (String.ofList s).toByteArray := by
    unfold bytes
    rw [toList_eq, String.toUTF8_eq_toByteArray, Array.toArray_toList]
  unfold text? String.fromUTF8?
  rw [hbytes, dif_pos (String.ofList s).isValidUTF8]
  rfl

/-- A character of ASCII is its own byte. -/
theorem utf8EncodeChar_ascii {c : Char} (h : c.toNat < 128) :
    String.utf8EncodeChar c = [UInt8.ofNat c.toNat] := by
  have hle : c.val.toNat ≤ 127 := Nat.le_of_lt_succ h
  unfold String.utf8EncodeChar
  exact if_pos hle

theorem bytes_ascii {s : List Char} (h : ∀ c ∈ s, c.toNat < 128) :
    bytes s = s.map (fun c => UInt8.ofNat c.toNat) := by
  rw [bytes_eq]
  induction s with
  | nil => rfl
  | cons c s ih =>
    rw [List.forall_mem_cons] at h
    rw [List.flatMap_cons, utf8EncodeChar_ascii h.1, ih h.2]
    rfl

/-! ## Decoding -/

theorem digitValue_digit : ∀ n < 16, digitValue (UInt8.ofNat (digit n).toNat) = some n := by decide

theorem toNat_digit : ∀ n < 16, (digit n).toNat < 128 := by decide

theorem decode_cons {b : UInt8} (h : b ≠ 37) (rest : List UInt8) :
    decode (b :: rest) = b :: decode rest := by
  -- the decoder looks two bytes ahead, so its equations ask how many there are
  match rest with
  | [] => rfl
  | [_] => rfl
  | _ :: _ :: _ =>
    have hb : (b == 37) = false := beq_eq_false_iff_ne.mpr h
    rw [decode]
    split
    · next hb' _ _ => rw [hb] at hb'; cases hb'
    · rfl

theorem decode_encodeByte (b : UInt8) (rest : List UInt8) :
    decode (bytes (encodeByte b) ++ rest) = b :: decode rest := by
  have hb := b.toNat_lt
  have hhigh : b.toNat / 16 < 16 := by omega
  have hlow : b.toNat % 16 < 16 := by omega
  have hbytes : bytes (encodeByte b) = [37, UInt8.ofNat (digit (b.toNat / 16)).toNat,
      UInt8.ofNat (digit (b.toNat % 16)).toNat] := by
    refine bytes_ascii ?_
    unfold encodeByte
    simp [toNat_digit _ hhigh, toNat_digit _ hlow]
  rw [hbytes]
  show decode (37 :: _ :: _ :: rest) = _
  rw [decode]
  simp only [beq_self_eq_true, digitValue_digit _ hhigh, digitValue_digit _ hlow]
  rw [show 16 * (b.toNat / 16) + b.toNat % 16 = b.toNat by omega, UInt8.ofNat_toNat]

theorem decode_encodeBytes (bs rest : List UInt8) :
    decode (bytes (bs.flatMap encodeByte) ++ rest) = bs ++ decode rest := by
  induction bs with
  | nil => rw [List.flatMap_nil, bytes_eq]; rfl
  | cons b bs ih =>
    rw [List.flatMap_cons, bytes_append, List.append_assoc, decode_encodeByte, ih]
    rfl

/-- Characters that an encoding may keep: those of ASCII but the percent sign. -/
def Keepable (keep : Char → Bool) : Prop := ∀ c, keep c = true → c.toNat < 128 ∧ c ≠ '%'

theorem toNat_ne_of_ne {c d : Char} (h : c ≠ d) : c.toNat ≠ d.toNat :=
  fun he => h (Char.toNat_inj.mp he)

theorem decode_encodeChar {keep : Char → Bool} (hkeep : Keepable keep) (c : Char)
    (rest : List UInt8) :
    decode (bytes (encodeChar keep c) ++ rest) = String.utf8EncodeChar c ++ decode rest := by
  unfold encodeChar
  split
  · next h =>
    obtain ⟨hascii, hne⟩ := hkeep c h
    have hbyte : UInt8.ofNat c.toNat ≠ 37 := by
      intro he
      have hnat := congrArg UInt8.toNat he
      rw [UInt8.toNat_ofNat_of_lt' (Nat.lt_trans hascii (by decide))] at hnat
      exact toNat_ne_of_ne hne hnat
    rw [bytes_eq, List.flatMap_singleton, utf8EncodeChar_ascii hascii]
    exact decode_cons hbyte rest
  · rw [toList_singleton, decode_encodeBytes]

/-- What a text is encoded as stands for the bytes of the text. -/
theorem decode_encode {keep : Char → Bool} (hkeep : Keepable keep) (s : List Char) :
    decode (bytes (encode keep s)) = bytes s := by
  induction s with
  | nil => rw [encode, List.flatMap_nil, bytes_eq]; rfl
  | cons c s ih =>
    show decode (bytes (encodeChar keep c ++ encode keep s)) = _
    rw [bytes_append, decode_encodeChar hkeep, ih, bytes_eq, bytes_eq, List.flatMap_cons]

/-! ## Characters of encoded texts -/

/-- An encoded text consists of kept characters, percent signs and digits. -/
theorem mem_encode {keep : Char → Bool} {s : List Char} {c : Char} (h : c ∈ encode keep s) :
    keep c = true ∨ c = '%' ∨ ∃ n < 16, c = digit n := by
  obtain ⟨d, -, hd⟩ := List.mem_flatMap.mp h
  unfold encodeChar at hd
  split at hd
  · next hk => rw [List.mem_singleton.mp hd]; exact .inl hk
  · obtain ⟨b, -, hb⟩ := List.mem_flatMap.mp hd
    have hlt := b.toNat_lt
    unfold encodeByte at hb
    simp only [List.mem_cons, List.not_mem_nil, or_false] at hb
    rcases hb with rfl | rfl | rfl
    · exact .inr (.inl rfl)
    · exact .inr (.inr ⟨_, by omega, rfl⟩)
    · exact .inr (.inr ⟨_, by omega, rfl⟩)

theorem encode_ne_nil {keep : Char → Bool} {s : List Char} (h : s ≠ []) : encode keep s ≠ [] := by
  cases s with
  | nil => exact absurd rfl h
  | cons c s =>
    show encodeChar keep c ++ encode keep s ≠ []
    unfold encodeChar
    split
    · exact List.cons_ne_nil _ _
    · rw [toList_singleton]
      cases hbytes : String.utf8EncodeChar c with
      | nil => exact absurd hbytes String.utf8EncodeChar_ne_nil
      | cons b bs => exact List.cons_ne_nil _ _

/-! ## Reading bytes of ASCII -/

/-- Whether a text has no character outside ASCII. -/
def isAscii (s : String) : Bool := s.toList.all (fun c => c.toNat < 128)

theorem isAscii_iff {s : String} : isAscii s = true ↔ ∀ c ∈ s.toList, c.toNat < 128 := by
  unfold isAscii
  simp only [List.all_eq_true, decide_eq_true_eq]

/-- Bytes of ASCII stand for their characters. -/
theorem lossyText_ascii {s : List Char} (h : ∀ c ∈ s, c.toNat < 128) :
    lossyText (bytes s) = s := by
  rw [bytes_ascii h]
  induction s with
  | nil => rw [List.map_nil, lossyText]
  | cons c s ih =>
    rw [List.forall_mem_cons] at h
    have hbyte : (UInt8.ofNat c.toNat).toNat = c.toNat :=
      UInt8.toNat_ofNat_of_lt' (Nat.lt_trans h.1 (by decide))
    rw [List.map_cons, lossyText, if_pos (by rw [hbyte]; exact h.1), hbyte, Char.ofNat_toNat,
      ih h.2]

end Homeserver.Percent
