/-
Bytes are read back from what is written of them, in both alphabets.
-/
import Homeserver.Bytes.Base64

namespace Homeserver.Base64

/-- The numbers below 64 whose characters stand for bytes. -/
def sextets : List UInt8 → List Nat
  | [] => []
  | [x] => [x.toNat / 4, x.toNat % 4 * 16]
  | [x, y] => [x.toNat / 4, x.toNat % 4 * 16 + y.toNat / 16, y.toNat % 16 * 4]
  | x :: y :: z :: rest =>
    x.toNat / 4 :: (x.toNat % 4 * 16 + y.toNat / 16) :: (y.toNat % 16 * 4 + z.toNat / 64) ::
      z.toNat % 64 :: sextets rest

theorem encodeBytes_eq (a : Alphabet) (bytes : List UInt8) :
    encodeBytes a bytes = (sextets bytes).map a.char := by
  induction bytes using sextets.induct with
  | case1 => rfl
  | case2 x => rfl
  | case3 x y => rfl
  | case4 x y z rest ih => rw [encodeBytes, sextets, ih]; rfl

theorem sextets_lt (bytes : List UInt8) : ∀ n ∈ sextets bytes, n < 64 := by
  induction bytes using sextets.induct with
  | case1 => simp [sextets]
  | case2 x =>
    have hx := x.toNat_lt
    simp only [sextets, List.forall_mem_cons]
    exact ⟨by omega, by omega, by simp⟩
  | case3 x y =>
    have hx := x.toNat_lt
    have hy := y.toNat_lt
    simp only [sextets, List.forall_mem_cons]
    exact ⟨by omega, by omega, by omega, by simp⟩
  | case4 x y z rest ih =>
    have hx := x.toNat_lt
    have hy := y.toNat_lt
    have hz := z.toNat_lt
    simp only [sextets, List.forall_mem_cons]
    exact ⟨by omega, by omega, by omega, by omega, ih⟩

theorem ofNat_of_eq {x : UInt8} {n : Nat} (h : n = x.toNat) : UInt8.ofNat n = x := by
  rw [h, UInt8.ofNat_toNat]

/-- The bits that numbers below 64 share out are joined to the bytes again. -/
theorem joinSextets_sextets (bytes : List UInt8) : joinSextets (sextets bytes) = some bytes := by
  induction bytes using sextets.induct with
  | case1 => rfl
  | case2 x =>
    have hx := x.toNat_lt
    rw [sextets, joinSextets, if_pos (by omega), ofNat_of_eq (x := x) (by omega)]
  | case3 x y =>
    have hx := x.toNat_lt
    have hy := y.toNat_lt
    rw [sextets, joinSextets, if_pos (by omega), ofNat_of_eq (x := x) (by omega),
      ofNat_of_eq (x := y) (by omega)]
  | case4 x y z rest ih =>
    have hx := x.toNat_lt
    have hy := y.toNat_lt
    have hz := z.toNat_lt
    rw [sextets, joinSextets, ih, ofNat_of_eq (x := x) (by omega), ofNat_of_eq (x := y) (by omega),
      ofNat_of_eq (x := z) (by omega)]
    rfl

/-- Texts are made of the characters of the alphabet. -/
theorem mem_encodeBytes {a : Alphabet} {bytes : List UInt8} {c : Char}
    (h : c ∈ encodeBytes a bytes) : ∃ n < 64, c = a.char n := by
  rw [encodeBytes_eq, List.mem_map] at h
  obtain ⟨n, hn, rfl⟩ := h
  exact ⟨n, sextets_lt bytes n hn, rfl⟩

theorem value_char (a : Alphabet) : ∀ n < 64, a.value (a.char n) = some n := by
  cases a <;> decide

theorem mapM_value (a : Alphabet) {numbers : List Nat} (h : ∀ n ∈ numbers, n < 64) :
    (numbers.map a.char).mapM a.value = some numbers := by
  induction numbers with
  | nil => rfl
  | cons n numbers ih =>
    rw [List.forall_mem_cons] at h
    rw [List.map_cons, List.mapM_cons, value_char a n h.1, ih h.2]
    rfl

/-- Bytes are read back from their text. -/
theorem decode?_encode (a : Alphabet) (bytes : List UInt8) :
    decode? a (encode a bytes) = some bytes := by
  unfold decode? encode
  rw [String.toList_ofList, encodeBytes_eq, mapM_value a (sextets_lt bytes), Option.bind_some,
    joinSextets_sextets]

theorem encode_inj (a : Alphabet) {s t : List UInt8} : encode a s = encode a t ↔ s = t := by
  constructor
  · intro h
    have hread := congrArg (decode? a) h
    rw [decode?_encode, decode?_encode] at hread
    exact Option.some.inj hread
  · rintro rfl
    rfl

end Homeserver.Base64
