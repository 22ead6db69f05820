/-
The message schedule of SHA-256 as a sliding window: a message is padded to whole blocks, each of
them has sixteen words, and each further word is made of four of the last sixteen.
-/
import Homeserver.Digest.Sha256

namespace Homeserver.Digest

/-! ## Blocks -/

theorem length_bigEndian (count n : Nat) : (bigEndian count n).length = count := by
  unfold bigEndian
  rw [List.length_map, List.length_reverse, List.length_range]

/-- A padded message consists of whole blocks. -/
theorem length_pad {block : Nat} (h : 0 < block) (lengthBytes : Nat) (message : List UInt8) :
    ∃ k, (pad block lengthBytes message).length = block * k := by
  unfold pad
  simp only [List.length_append, List.length_cons, List.length_replicate, length_bigEndian]
  generalize hfilled : message.length + 1 + lengthBytes = filled
  have hmod := Nat.mod_add_div filled block
  have hlt := Nat.mod_lt filled h
  by_cases hzero : filled % block = 0
  · refine ⟨filled / block, ?_⟩
    rw [hzero, Nat.sub_zero, Nat.mod_self]
    omega
  · refine ⟨filled / block + 1, ?_⟩
    rw [Nat.mod_eq_of_lt (by omega : block - filled % block < block), Nat.mul_add, Nat.mul_one]
    omega

/-- A list of `k` pieces of full length is cut into those. -/
theorem chunksAux_spec {α : Type} {n k bound : Nat} {items : List α}
    (hlength : items.length = (n + 1) * k) (hbound : k ≤ bound) :
    (chunksAux n bound items).length = k ∧ ∀ c ∈ chunksAux n bound items, c.length = n + 1 := by
  induction k generalizing bound items with
  | zero =>
    have hnil : items = [] := List.length_eq_zero_iff.mp (by rw [hlength, Nat.mul_zero])
    subst hnil
    cases bound <;> exact ⟨rfl, fun _ h => (nomatch h)⟩
  | succ k ih =>
    rw [Nat.mul_succ] at hlength
    cases bound with
    | zero => cases hbound
    | succ bound =>
      cases items with
      | nil => rw [List.length_nil] at hlength; omega
      | cons x items =>
        have hdrop : ((x :: items).drop (n + 1)).length = (n + 1) * k := by
          rw [List.length_drop]; omega
        obtain ⟨hcount, hpieces⟩ := ih hdrop (Nat.le_of_succ_le_succ hbound)
        have hcut : chunksAux n (bound + 1) (x :: items) =
            (x :: items).take (n + 1) :: chunksAux n bound ((x :: items).drop (n + 1)) := rfl
        rw [hcut]
        refine ⟨by rw [List.length_cons, hcount], List.forall_mem_cons.mpr ⟨?_, hpieces⟩⟩
        rw [List.length_take]
        omega

theorem chunks_spec {α : Type} {n k : Nat} {items : List α}
    (hlength : items.length = (n + 1) * k) :
    (chunks (n + 1) items).length = k ∧ ∀ c ∈ chunks (n + 1) items, c.length = n + 1 :=
  chunksAux_spec hlength (by rw [hlength]; exact Nat.le_mul_of_pos_left k (Nat.succ_pos n))

namespace Sha256

/-! ## Schedules -/

/-- The next word of a schedule from the words before it, the last one first. -/
def nextWord (w : List UInt32) : UInt32 :=
  smallSigma1 (w.getD 1 0) + w.getD 6 0 + smallSigma0 (w.getD 14 0) + w.getD 15 0

/-- Puts `n` further words in front of the words before them. -/
def slide : Nat → List UInt32 → List UInt32
  | 0, w => w
  | n + 1, w => slide n (nextWord w :: w)

theorem getD_reverse {w : Array UInt32} {k : Nat} (hpos : 0 < k) (hk : k ≤ w.size) :
    w.getD (w.size - k) 0 = w.toList.reverse.getD (k - 1) 0 := by
  have hlength : w.toList.length = w.size := Array.length_toList
  rw [Array.getD_eq_getD_getElem?, ← Array.getElem?_toList, List.getD_eq_getElem?_getD,
    List.getElem?_reverse (by omega), hlength, show w.size - 1 - (k - 1) = w.size - k by omega]

theorem size_extend (w : Array UInt32) : (extend w).size = w.size + 1 := Array.size_push _

theorem extend_eq {w : Array UInt32} (h : 16 ≤ w.size) :
    (extend w).toList.reverse = nextWord w.toList.reverse :: w.toList.reverse := by
  unfold extend nextWord
  simp only [Array.toList_push, List.reverse_append, List.reverse_cons, List.reverse_nil,
    List.nil_append, List.singleton_append]
  rw [getD_reverse (by decide) (by omega), getD_reverse (by decide) (by omega),
    getD_reverse (by decide) (by omega), getD_reverse (by decide) (by omega)]

theorem slide_comm (n : Nat) (w : List UInt32) :
    slide n (nextWord w :: w) = nextWord (slide n w) :: slide n w := by
  induction n generalizing w with
  | zero => rfl
  | succ n ih => exact ih (nextWord w :: w)

theorem repeat_extend {w : Array UInt32} (h : 16 ≤ w.size) (n : Nat) :
    16 ≤ (Nat.repeat extend n w).size ∧
      (Nat.repeat extend n w).toList.reverse = slide n w.toList.reverse := by
  -- there are sixteen words at each step, so that it looks at no word that is missing
  induction n with
  | zero => exact ⟨h, rfl⟩
  | succ n ih =>
    obtain ⟨hsize, hwords⟩ := ih
    refine ⟨?_, ?_⟩
    · show 16 ≤ (extend (Nat.repeat extend n w)).size
      rw [size_extend]
      exact Nat.le_succ_of_le hsize
    · show (extend (Nat.repeat extend n w)).toList.reverse = slide n (nextWord _ :: _)
      rw [extend_eq hsize, hwords, slide_comm]

theorem schedule_eq {block : List UInt8} (h : block.length = 64) :
    (schedule block).toList = (slide 48 ((chunks 4 block).map word).reverse).reverse := by
  have hwords : (words block).toList = (chunks 4 block).map word := rfl
  have hsize : (words block).size = 16 := by
    rw [← Array.length_toList, hwords, List.length_map, (chunks_spec (n := 3) (k := 16) h).1]
  unfold schedule
  rw [← hwords, ← (repeat_extend (by omega) 48).2, List.reverse_reverse]

/-! ## Digests -/

/-- The rounds over a block whose schedule is made by sliding. -/
def compressBySliding (s : State) (block : List UInt8) : State :=
  let t := ((slide 48 ((chunks 4 block).map word).reverse).reverse.zip roundConstants).foldl round s
  ⟨s.a + t.a, s.b + t.b, s.c + t.c, s.d + t.d, s.e + t.e, s.f + t.f, s.g + t.g, s.h + t.h⟩

theorem foldl_compress {blocks : List (List UInt8)} (h : ∀ block ∈ blocks, block.length = 64)
    (s : State) : blocks.foldl compress s = blocks.foldl compressBySliding s := by
  induction blocks generalizing s with
  | nil => rw [List.foldl_nil, List.foldl_nil]
  | cons block blocks ih =>
    rw [List.forall_mem_cons] at h
    have hblock : compress s block = compressBySliding s block := by
      simp only [compress, compressBySliding, schedule_eq h.1]
    rw [List.foldl_cons, List.foldl_cons, hblock, ih h.2]

/-- The digest of a message by sliding schedules. -/
theorem digest_eq (message : List UInt8) :
    digest message =
      ((chunks 64 (pad 64 8 message)).foldl compressBySliding initial).bytes := by
  obtain ⟨k, hlength⟩ := length_pad (by decide : 0 < 64) 8 message
  unfold digest
  rw [foldl_compress (chunks_spec (n := 63) hlength).2]

end Sha256

end Homeserver.Digest
