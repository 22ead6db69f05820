/-
Ed25519 signatures. A signature is accepted when its first half is the encoding of the point that
the second half, the key and the message give, byte for byte; keys and points of small order are
not treated apart.
-/
import Homeserver.Digest.Sha512
import Homeserver.Signature.Curve

namespace Homeserver.Ed25519

open Point

/-! ## Keys -/

/-- The 32 bytes from which a key pair is made. -/
structure SecretKey where
  seed : List UInt8
  deriving DecidableEq

/-- The 32 bytes of an encoded point, kept as they were given, and the point. -/
structure PublicKey where
  bytes : List UInt8
  point : Point

namespace SecretKey

def expanded (key : SecretKey) : List UInt8 := Digest.Sha512.digest key.seed

/-- The secret multiple of the base point: bit 254 is set, the three lowest are not. -/
def scalar (key : SecretKey) : Nat :=
  let n := ofBytes (key.expanded.take 32)
  n % Nat.pow 2 254 / 8 * 8 + Nat.pow 2 254

def publicPoint (key : SecretKey) : Point := base.smul key.scalar

def publicBytes (key : SecretKey) : List UInt8 := key.publicPoint.encode

def publicKey (key : SecretKey) : PublicKey := ⟨key.publicBytes, key.publicPoint⟩

end SecretKey

/-- The key with these 32 bytes, if they encode a point. -/
def PublicKey.ofBytes? (bytes : List UInt8) : Option PublicKey :=
  (Point.decode? bytes).map (fun point => ⟨bytes, point⟩)

/-! ## Signatures -/

/-- A digest as a multiple of the base point. -/
def hashScalar (bytes : List UInt8) : Nat := ofBytes (Digest.Sha512.digest bytes) % order

/-- The 64 bytes of a signature of a message. -/
def sign (key : SecretKey) (message : List UInt8) : List UInt8 :=
  let secret := key.scalar
  let publicBytes := (base.smul secret).encode
  let nonce := hashScalar (key.expanded.drop 32 ++ message)
  let point := (base.smul nonce).encode
  let challenge := hashScalar (point ++ publicBytes ++ message)
  point ++ toBytes 32 ((challenge * secret + nonce) % order)

/-- Why a signature is not accepted. -/
inductive Rejection where
  /-- It is not 64 bytes long. -/
  | length
  /-- Its second half is not below the order of the base point. -/
  | unreduced
  /-- It does not belong to the message and the key. -/
  | equation
  deriving DecidableEq, Repr

/-- Accepts a signature of a message under a key. -/
def verify (key : PublicKey) (message signature : List UInt8) : Except Rejection Unit :=
  if signature.length ≠ 64 then .error .length
  else
    let point := signature.take 32
    let s := ofBytes (signature.drop 32)
    if order ≤ s then .error .unreduced
    else
      let challenge := hashScalar (point ++ key.bytes ++ message)
      let expected := (base.smul s).add ((key.point.smul challenge).neg)
      if expected.encode = point then .ok () else .error .equation

end Homeserver.Ed25519
