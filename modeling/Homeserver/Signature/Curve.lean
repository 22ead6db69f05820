/-
Points of the twisted Edwards curve `-x² + y² = 1 + d·x²·y²` over the field of `2 ^ 255 - 19`
elements, in extended coordinates, and their encoding in 32 bytes.
-/
import Homeserver.Signature.Field

namespace Homeserver.Ed25519

open Homeserver.Ed25519.Field

/-- The point `(x / z, y / z)`, with `t = x · y / z`. -/
structure Point where
  x : Nat
  y : Nat
  z : Nat
  t : Nat

namespace Point

def d : Nat := mul (neg 121665) (inv 121666)

def twoD : Nat := add d d

def zero : Point := ⟨0, 1, 1, 0⟩

/-- The sum of two points; the formula holds for all pairs. -/
def add (p q : Point) : Point :=
  let a := mul (sub p.y p.x) (sub q.y q.x)
  let b := mul (Field.add p.y p.x) (Field.add q.y q.x)
  let c := mul (mul p.t twoD) q.t
  let e := mul (Field.add p.z p.z) q.z
  let (l, m, n, o) := (sub b a, sub e c, Field.add e c, Field.add b a)
  ⟨mul l m, mul n o, mul m n, mul l o⟩

def neg (p : Point) : Point := ⟨Field.neg p.x, p.y, p.z, Field.neg p.t⟩

/-- The sum of `n` times a point. -/
def smul (n : Nat) (p : Point) : Point :=
  (bits n).foldr (fun bit r => if bit then (r.add r).add p else r.add r) zero

/-- A number from its bytes, the lowest first. -/
def ofBytes (bytes : List UInt8) : Nat := bytes.foldr (fun b n => b.toNat + 256 * n) 0

/-- The lowest `count` bytes of a number, the lowest first. -/
def toBytes (count n : Nat) : List UInt8 :=
  (List.range count).map (fun i => UInt8.ofNat (n / Nat.pow 256 i % 256))

/-- The `y` coordinate, with the parity of `x` as the highest bit. -/
def encode (p : Point) : List UInt8 :=
  let r := inv p.z
  toBytes 32 (mul p.y r + Nat.pow 2 255 * (mul p.x r % 2))

/-- The point with this encoding, if the `y` coordinate is one of the curve's; it may be written
with a multiple of the prime added. -/
def decode? (bytes : List UInt8) : Option Point :=
  let n := ofBytes bytes
  let y := n % Nat.pow 2 255 % prime
  let y2 := mul y y
  (sqrtRatio (sub y2 1) (Field.add (mul d y2) 1)).map (fun root =>
    let x := if n / Nat.pow 2 255 % 2 = 1 then Field.neg root else root
    ⟨x, y, 1, mul x y⟩)

/-- The base point, with `y = 4 / 5` and even `x`. -/
def base : Point :=
  let y := mul 4 (inv 5)
  (decode? (toBytes 32 y)).getD zero

/-- The number of points that the base point generates. -/
def order : Nat := Nat.pow 2 252 + 27742317777372353535851937790883648493

end Point

end Homeserver.Ed25519
