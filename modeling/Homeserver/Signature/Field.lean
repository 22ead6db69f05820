/-
The field of integers modulo the prime `2 ^ 255 - 19`, with its square roots.
-/
namespace Homeserver.Ed25519.Field

def prime : Nat := Nat.pow 2 255 - 19

def add (x y : Nat) : Nat := (x + y) % prime

def sub (x y : Nat) : Nat := (x + (prime - y % prime)) % prime

def mul (x y : Nat) : Nat := x * y % prime

def neg (x : Nat) : Nat := sub 0 x

/-- The bits of a number, the lowest first. -/
def bits (n : Nat) : List Bool :=
  if n = 0 then [] else (n % 2 = 1) :: bits (n / 2)

/-- `x ^ n` by squaring. -/
def pow (x n : Nat) : Nat :=
  (bits n).foldr (fun bit r => if bit then mul (mul r r) x else mul r r) 1

/-- The inverse of a number, and zero for zero. -/
def inv (x : Nat) : Nat := pow x (prime - 2)

/-- A square root of minus one. -/
def rootOfMinusOne : Nat := pow 2 ((prime - 1) / 4)

/-- The even root of `u / v`, if there is one. -/
def sqrtRatio (u v : Nat) : Option Nat :=
  let v3 := mul (mul v v) v
  let v7 := mul (mul v3 v3) v
  let r := mul (mul u v3) (pow (mul u v7) ((prime - 5) / 8))
  let check := mul v (mul r r)
  let root := if check = u % prime then some r
    else if check = neg u then some (mul r rootOfMinusOne)
    else none
  root.map (fun r => if r % 2 = 1 then neg r else r)

end Homeserver.Ed25519.Field
