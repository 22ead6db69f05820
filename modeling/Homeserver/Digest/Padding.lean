/-
What the digests of the SHA-2 family share: padding a message to whole blocks and cutting it up.
-/
namespace Homeserver.Digest

/-- The lowest `count` bytes of a number, the highest first. -/
def bigEndian (count n : Nat) : List UInt8 :=
  (List.range count).reverse.map (fun i => UInt8.ofNat (n / Nat.pow 256 i % 256))

/-- The message, a bit that is set, zeros, and the number of bits in `lengthBytes` bytes, together
a multiple of `block` bytes. -/
def pad (block lengthBytes : Nat) (message : List UInt8) : List UInt8 :=
  let filled := message.length + 1 + lengthBytes
  let zeros := (block - filled % block) % block
  message ++ 0x80 :: (List.replicate zeros 0 ++ bigEndian lengthBytes (8 * message.length))

/-- Cuts a list into pieces of `n + 1` items. -/
def chunksAux {α : Type} (n : Nat) : Nat → List α → List (List α)
  | 0, _ => []
  | _ + 1, [] => []
  | bound + 1, items => items.take (n + 1) :: chunksAux n bound (items.drop (n + 1))

/-- Cuts a list into pieces of `n` items, of which the last may be shorter. -/
def chunks {α : Type} (n : Nat) (items : List α) : List (List α) :=
  chunksAux (n - 1) items.length items

end Homeserver.Digest
