/-
Base64 without padding, in the standard and the URL safe alphabet. Reading accepts exactly what
writing produces: no other character, no padding, and no bit set beyond the last byte.
-/
namespace Homeserver.Base64

/-- The two characters in which the alphabets differ. -/
inductive Alphabet where
  | standard
  | urlSafe
  deriving DecidableEq, Repr

/-! ## Characters -/

/-- The character for a number below 64. -/
def Alphabet.char (a : Alphabet) (n : Nat) : Char :=
  if n < 26 then Char.ofNat (65 + n)
  else if n < 52 then Char.ofNat (71 + n)
  else if n < 62 then Char.ofNat (n - 4)
  else if n = 62 then (match a with | .standard => '+' | .urlSafe => '-')
  else match a with | .standard => '/' | .urlSafe => '_'

/-- The number that a character stands for. -/
def Alphabet.value (a : Alphabet) (c : Char) : Option Nat :=
  if 'A' ≤ c ∧ c ≤ 'Z' then some (c.toNat - 65)
  else if 'a' ≤ c ∧ c ≤ 'z' then some (c.toNat - 71)
  else if '0' ≤ c ∧ c ≤ '9' then some (c.toNat + 4)
  else if c = a.char 62 then some 62
  else if c = a.char 63 then some 63
  else none

/-! ## Bytes -/

/-- Three bytes make four characters; one or two bytes at the end make two or three. -/
def encodeBytes (a : Alphabet) : List UInt8 → List Char
  | [] => []
  | [x] => [a.char (x.toNat / 4), a.char (x.toNat % 4 * 16)]
  | [x, y] =>
    [a.char (x.toNat / 4), a.char (x.toNat % 4 * 16 + y.toNat / 16), a.char (y.toNat % 16 * 4)]
  | x :: y :: z :: rest =>
    a.char (x.toNat / 4) :: a.char (x.toNat % 4 * 16 + y.toNat / 16)
      :: a.char (y.toNat % 16 * 4 + z.toNat / 64) :: a.char (z.toNat % 64) :: encodeBytes a rest

/-- The bytes of numbers below 64; nothing if a bit is left over that is not zero. -/
def joinSextets : List Nat → Option (List UInt8)
  | [] => some []
  | [_] => none
  | [p, q] => if q % 16 = 0 then some [UInt8.ofNat (p * 4 + q / 16)] else none
  | [p, q, r] =>
    if r % 4 = 0 then some [UInt8.ofNat (p * 4 + q / 16), UInt8.ofNat (q % 16 * 16 + r / 4)]
    else none
  | p :: q :: r :: s :: rest =>
    (joinSextets rest).map (fun bytes =>
      UInt8.ofNat (p * 4 + q / 16) :: UInt8.ofNat (q % 16 * 16 + r / 4)
        :: UInt8.ofNat (r % 4 * 64 + s) :: bytes)

/-- Writes bytes. -/
def encode (a : Alphabet) (bytes : List UInt8) : String := String.ofList (encodeBytes a bytes)

/-- Reads bytes. -/
def decode? (a : Alphabet) (text : String) : Option (List UInt8) :=
  (text.toList.mapM a.value).bind joinSextets

end Homeserver.Base64
