/-
Rounding of fractions of natural numbers.
-/
namespace Homeserver.Rounding

/-- `num / den` divided by `2 ^ place`, as a fraction. -/
def scale (num den : Nat) (place : Int) : Nat × Nat :=
  if 0 ≤ place then (num, den * Nat.pow 2 place.toNat) else (num * Nat.pow 2 (-place).toNat, den)

/-- The natural number nearest to `num / den`, the even one of two equally near. -/
def halfEven (num den : Nat) : Nat :=
  let floor := num / den
  let rest := num % den
  if 2 * rest < den then floor
  else if den < 2 * rest then floor + 1
  else if floor % 2 = 0 then floor
  else floor + 1

end Homeserver.Rounding
