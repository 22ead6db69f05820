/-
The unquoted values of TOML: integers in four bases, floating point numbers, truth values, dates
and times.
-/
import Homeserver.Number.Double
import Homeserver.Toml.Basic
import Homeserver.Toml.Text

namespace Homeserver.Toml.Scalar

/-! ## Digits -/

/-- The digits of a text in which an underscore may stand between two digits. -/
def digits? (isDigit : Char → Bool) : List Char → Option (List Char)
  | [] => none
  | [c] => if isDigit c then some [c] else none
  | c :: '_' :: rest => if isDigit c then (digits? isDigit rest).map (c :: ·) else none
  | c :: rest => if isDigit c then (digits? isDigit rest).map (c :: ·) else none

def valueOf (radix : Nat) (ds : List Char) : Nat :=
  ds.foldl (fun n c => radix * n + (Text.hexValue c).getD 0) 0

def isDigitOf (radix : Nat) (c : Char) : Bool := (Text.hexValue c).any (· < radix)

/-- The digits of a number without leading zeros. -/
def wholeDigits? (s : List Char) : Option (List Char) :=
  match digits? Char.isDigit s with
  | some ('0' :: _ :: _) => none
  | r => r

/-- A text without its sign, and whether that was a minus. -/
def sign : List Char → Bool × List Char
  | '-' :: rest => (true, rest)
  | '+' :: rest => (false, rest)
  | s => (false, s)

/-! ## Numbers -/

/-- An integer of 64 bits. -/
def bounded (n : Int) : Option Toml :=
  if Int64.minValue.toInt ≤ n ∧ n ≤ Int64.maxValue.toInt then some (.int n) else none

def radixInteger (radix : Nat) (s : List Char) : Option Toml :=
  (digits? (isDigitOf radix) s).bind (fun ds => bounded (valueOf radix ds))

def integer : List Char → Option Toml
  | '0' :: 'x' :: rest => radixInteger 16 rest
  | '0' :: 'o' :: rest => radixInteger 8 rest
  | '0' :: 'b' :: rest => radixInteger 2 rest
  | s =>
    let (negative, s) := sign s
    (wholeDigits? s).bind (fun ds =>
      bounded (if negative then -(valueOf 10 ds : Int) else valueOf 10 ds))

/-- The parts of a text before and from the first character that fulfils a test. -/
def splitAt (p : Char → Bool) (s : List Char) : List Char × List Char :=
  (s.takeWhile (fun c => !p c), s.dropWhile (fun c => !p c))

def fraction? : List Char → Option (List Char)
  | [] => some []
  | '.' :: rest => digits? Char.isDigit rest
  | _ => none

def exponent? : List Char → Option Int
  | [] => some 0
  | _ :: rest =>
    let (negative, ds) := sign rest
    (digits? Char.isDigit ds).map (fun ds =>
      if negative then -(valueOf 10 ds : Int) else valueOf 10 ds)

/-- Whether `digits · 10 ^ e` rounds to a finite floating point number. Of `n` digits without leading
zeros it lies between `10 ^ (n + e - 1)` and `10 ^ (n + e)`, so only powers next to the greatest
finite number need a closer look. -/
def isFinite (digits : List Char) (e : Int) : Bool :=
  let ds := digits.dropWhile (· = '0')
  if ds.isEmpty || ds.length + e ≤ 308 then true
  else if 309 < ds.length + e then false
  else (Double.Magnitude.nearest (valueOf 10 ds * Nat.pow 10 e.toNat)
    (Nat.pow 10 (-e).toNat)).isSome

/-- Whether a text is a floating point number with a point or an exponent; it may be too large only
if it is negative. -/
def isDecimal (s : List Char) : Bool :=
  let (negative, s) := sign s
  let (mantissa, exp) := splitAt (fun c => c = 'e' || c = 'E') s
  let (whole, frac) := splitAt (· = '.') mantissa
  match wholeDigits? whole, fraction? frac, exponent? exp with
  | some ds, some fs, some e =>
    !(frac.isEmpty && exp.isEmpty) && (negative || isFinite (ds ++ fs) (e - fs.length))
  | _, _, _ => false

def isFloat (s : List Char) : Bool :=
  let bare := (sign s).2
  bare = ['i', 'n', 'f'] || bare = ['n', 'a', 'n'] || isDecimal s

/-! ## Dates and times -/

/-- Two digits between two bounds. -/
def twoDigits (low high : Nat) : List Char → Option (List Char)
  | a :: b :: rest =>
    let n := valueOf 10 [a, b]
    if a.isDigit ∧ b.isDigit ∧ low ≤ n ∧ n ≤ high then some rest else none
  | _ => none

def isLeapYear (year : Nat) : Bool := year % 4 = 0 && (year % 100 ≠ 0 || year % 400 = 0)

def daysOfMonth (year month : Nat) : Nat :=
  if month = 2 then (if isLeapYear year then 29 else 28)
  else if month = 4 ∨ month = 6 ∨ month = 9 ∨ month = 11 then 30
  else 31

/-- The text after a date. -/
def date : List Char → Option (List Char)
  | a :: b :: c :: d :: '-' :: m :: n :: '-' :: rest =>
    if [a, b, c, d, m, n].all Char.isDigit then
      let month := valueOf 10 [m, n]
      if 1 ≤ month ∧ month ≤ 12 then
        twoDigits 1 (daysOfMonth (valueOf 10 [a, b, c, d]) month) rest
      else none
    else none
  | _ => none

/-- The text after the fraction of a second, if there is one. -/
def secondFraction : List Char → Option (List Char)
  | '.' :: c :: rest => if c.isDigit then some (rest.dropWhile Char.isDigit) else none
  | '.' :: [] => none
  | s => some s

/-- The text after a time of day. -/
def time (s : List Char) : Option (List Char) := do
  let ':' :: s ← twoDigits 0 23 s | none
  let ':' :: s ← twoDigits 0 59 s | none
  secondFraction (← twoDigits 0 60 s)

/-- Whether a text is a distance from universal time. -/
def isOffset (s : List Char) : Bool :=
  match s with
  | ['Z'] | ['z'] => true
  | c :: rest => (c = '+' || c = '-') && (match twoDigits 0 23 rest with
    | some (':' :: rest) => twoDigits 0 59 rest = some []
    | _ => false)
  | [] => false

/-- Whether a text is a time of day, perhaps with its distance from universal time. -/
def isZonedTime (s : List Char) : Bool :=
  match time s with
  | some rest => rest.isEmpty || isOffset rest
  | none => false

def isDate (s : List Char) : Bool := date s = some []

def isDatetime (s : List Char) : Bool :=
  time s = some [] || (match date s with
    | some [] => true
    | some (c :: rest) => (c = 'T' || c = 't') && isZonedTime rest
    | none => false)

/-! ## All of them -/

/-- The characters of which unquoted values are made. -/
def isTokenChar (c : Char) : Bool :=
  c.isAlphanum || c = '+' || c = '-' || c = '_' || c = '.' || c = ':'

/-- The value that a whole token stands for. -/
def ofToken (s : List Char) : Option Toml :=
  if s = ['t', 'r', 'u', 'e'] then some (.bool true)
  else if s = ['f', 'a', 'l', 's', 'e'] then some (.bool false)
  else if isDatetime s then some .datetime
  else if isFloat s then some .float
  else integer s

/-- An unquoted value at the start of a text; a blank may stand between a date and a time. -/
def read (s : List Char) : Option (Toml × List Char) :=
  let token := s.takeWhile isTokenChar
  let rest := s.dropWhile isTokenChar
  match rest with
  | ' ' :: after =>
    let next := after.takeWhile isTokenChar
    if isDate token && isZonedTime next then some (.datetime, after.dropWhile isTokenChar)
    else (ofToken token).map (·, rest)
  | _ => (ofToken token).map (·, rest)

end Homeserver.Toml.Scalar
