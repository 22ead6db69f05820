/-
Finite binary floating point numbers with 53 significant bits, held as a sign, a significand and a
power of two, so that rounding and printing are arithmetic on natural numbers. A decimal is read by
rounding its digits and its power of ten separately and then their product or quotient.
-/
import Homeserver.Number.Rounding

namespace Homeserver

/-- The finite number `± significand · 2 ^ exponent`. Numbers made by this library keep
`significand < 2 ^ 53`, and `2 ^ 52 ≤ significand` unless `exponent = -1074`. -/
structure Double where
  negative : Bool
  significand : Nat
  exponent : Int
  deriving DecidableEq, Repr

namespace Double

/-! ## Magnitudes -/

/-- A magnitude `significand · 2 ^ exponent`. -/
structure Magnitude where
  significand : Nat
  exponent : Int
  deriving DecidableEq, Repr

namespace Magnitude

def zero : Magnitude := ⟨0, -1074⟩

/-- The magnitude as a fraction of natural numbers. -/
def fraction (x : Magnitude) : Nat × Nat :=
  if 0 ≤ x.exponent then (x.significand * Nat.pow 2 x.exponent.toNat, 1)
  else (x.significand, Nat.pow 2 (-x.exponent).toNat)

/-- The exponent of the last place of the magnitude nearest to `num / den`. -/
def lastPlace (num den : Nat) : Int :=
  let low : Int := max ((Nat.log2 num : Int) - (Nat.log2 den : Int) - 53) (-1074)
  let (n, d) := Rounding.scale num den low
  if Nat.pow 2 53 ≤ n / d then low + 1 else low

/-- The magnitude nearest to `num / den`, the even one of two equally near; `none` when it is too
large. -/
def nearest (num den : Nat) : Option Magnitude :=
  if num = 0 then some zero
  else
    let place := lastPlace num den
    let (n, d) := Rounding.scale num den place
    let m := Rounding.halfEven n d
    let x : Magnitude := if m = Nat.pow 2 53 then ⟨Nat.pow 2 52, place + 1⟩ else ⟨m, place⟩
    if x.exponent ≤ 971 then some x else none

def mul (x y : Magnitude) : Option Magnitude :=
  nearest (x.fraction.1 * y.fraction.1) (x.fraction.2 * y.fraction.2)

def div (x y : Magnitude) : Option Magnitude :=
  nearest (x.fraction.1 * y.fraction.2) (x.fraction.2 * y.fraction.1)

/-- The largest power of ten that is finite is `10 ^ 308`. -/
def maxPower : Nat := 308

def powerOfTen (e : Nat) : Option Magnitude := nearest (Nat.pow 10 e) 1

/-- Divides by `10 ^ e`, in steps of `10 ^ 308`. -/
def shrink (x : Magnitude) (e : Nat) : Option Magnitude :=
  if e ≤ maxPower then do div x (← powerOfTen e)
  else if x.significand = 0 then some x
  else do
    let smaller ← div x (← powerOfTen maxPower)
    shrink smaller (e - maxPower)
termination_by e
decreasing_by simp_all [maxPower]; omega

/-- `digits · 10 ^ e`, rounded at each of its steps; `none` when it is too large. -/
def ofDecimal (digits : Nat) (e : Int) : Option Magnitude := do
  let x ← nearest digits 1
  if e < 0 then shrink x (-e).toNat
  else if e.toNat ≤ maxPower then mul x (← powerOfTen e.toNat)
  else if x.significand = 0 then some x
  else none

end Magnitude

/-! ## Signed numbers -/

def ofMagnitude (negative : Bool) (x : Magnitude) : Double := ⟨negative, x.significand, x.exponent⟩

/-- `± digits · 10 ^ e`; `none` when it is too large. -/
def ofDecimal (negative : Bool) (digits : Nat) (e : Int) : Option Double :=
  (Magnitude.ofDecimal digits e).map (ofMagnitude negative)

def zero (negative : Bool) : Double := ofMagnitude negative Magnitude.zero

/-- Equality of values: the two zeros are one number. -/
def same (x y : Double) : Bool :=
  (x.significand == 0 && y.significand == 0) || x == y

end Double

end Homeserver
