/-
The shortest decimal that reads back as a given floating point number, and its text. Positional
notation is used for decimal exponents from -5 to 15 and always shows a point; all other numbers
are written in scientific notation, with a sign on every exponent.
-/
import Homeserver.Number.Double

namespace Homeserver.Double

/-! ## Digits -/

/-- A decimal `digits · 10 ^ place`. -/
structure Decimal where
  digits : Nat
  place : Int
  deriving DecidableEq, Repr

namespace Decimal

/-- The decimal as a fraction of natural numbers. -/
def fraction (d : Decimal) : Nat × Nat :=
  if 0 ≤ d.place then (d.digits * Nat.pow 10 d.place.toNat, 1)
  else (d.digits, Nat.pow 10 (-d.place).toNat)

end Decimal

/-- The reals between `low · num / den` and `high · num / den`. -/
structure Interval where
  low : Nat
  high : Nat
  /-- Whether both ends belong to the interval. -/
  closed : Bool
  num : Nat
  den : Nat

/-- The reals that round to a number. Below the least significand of 53 bits the neighbour is half
as far away; the ends round to the number iff its significand is even. -/
def interval (x : Double) : Interval :=
  let narrow := x.significand = Nat.pow 2 52 ∧ -1074 < x.exponent
  let (num, den) :=
    if 0 ≤ x.exponent then (Nat.pow 2 x.exponent.toNat, 4)
    else (1, 4 * Nat.pow 2 (-x.exponent).toNat)
  { low := 4 * x.significand - (if narrow then 1 else 2)
    high := 4 * x.significand + 2
    closed := x.significand % 2 = 0
    num, den }

/-- Whether a decimal reads back as the number with this interval. -/
def Interval.holds (i : Interval) (d : Decimal) : Bool :=
  let (a, b) := d.fraction
  let middle := a * i.den
  let low := i.low * i.num * b
  let high := i.high * i.num * b
  if i.closed then low ≤ middle && middle ≤ high else low < middle && middle < high

/-- The exponent `e` with `10 ^ e ≤ num / den < 10 ^ (e + 1)`, for a positive fraction above
`10 ^ -400`. -/
def decimalExponent (num den : Nat) : Int :=
  if den ≤ num then (Nat.toDigits 10 (num / den)).length - 1
  else
    match (List.range 400).find? (fun t => den ≤ num * Nat.pow 10 t) with
    | some t => -t
    | none => -400

/-- Of the two decimals around the number whose last digit has this place, the one that reads back
and is nearer; of two equally near the even one. -/
def onGrid (x : Double) (place : Int) : Option Decimal :=
  let i := x.interval
  let (n, d) := (4 * x.significand * i.num, i.den)
  let (n, d) :=
    if 0 ≤ place then (n, d * Nat.pow 10 place.toNat) else (n * Nat.pow 10 (-place).toNat, d)
  let below : Decimal := ⟨n / d, place⟩
  let above : Decimal := ⟨n / d + 1, place⟩
  match i.holds below, i.holds above with
  | true, true => some ⟨Rounding.halfEven n d, place⟩
  | true, false => some below
  | false, true => some above
  | false, false => none

/-- The decimal with the fewest digits that reads back, and of those the nearest. -/
def shortest (x : Double) : Decimal :=
  let (n, d) := (4 * x.significand * x.interval.num, x.interval.den)
  let e := decimalExponent n d
  match (List.range 17).findSome? (fun (k : Nat) => x.onGrid (e - k)) with
  | some r => r
  | none => ⟨0, 0⟩

/-! ## Text -/

/-- Drops the zeros at the end of a number's digits. -/
def trimZeros (digits : List Char) : List Char :=
  (digits.reverse.dropWhile (· = '0')).reverse

/-- Positional notation of `0.d₁d₂… · 10 ^ point`. -/
def positional (digits : List Char) (point : Int) : List Char :=
  if point ≤ 0 then '0' :: '.' :: (List.replicate (-point).toNat '0' ++ digits)
  else if digits.length ≤ point.toNat then
    digits ++ List.replicate (point.toNat - digits.length) '0' ++ ['.', '0']
  else digits.take point.toNat ++ '.' :: digits.drop point.toNat

/-- Scientific notation of `d₁.d₂… · 10 ^ e`. -/
def scientific (digits : List Char) (e : Int) : List Char :=
  let power := (if e < 0 then ['-'] else ['+']) ++ Nat.toDigits 10 e.natAbs
  match digits with
  | [] => []
  | [d] => d :: 'e' :: power
  | d :: rest => d :: '.' :: rest ++ 'e' :: power

/-- The text of a number. -/
def text (x : Double) : List Char :=
  let sign := if x.negative then ['-'] else []
  if x.significand = 0 then sign ++ ['0', '.', '0']
  else
    let r := x.shortest
    let all := Nat.toDigits 10 r.digits
    let e : Int := r.place + all.length - 1
    let digits := trimZeros all
    if -5 ≤ e ∧ e < 16 then sign ++ positional digits (e + 1) else sign ++ scientific digits e

end Homeserver.Double
