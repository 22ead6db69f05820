/-
Reading JSON text. Arrays and objects may be nested 127 deep; of the members of an object with one
key the last one counts; escapes must stand for whole characters.
-/
import Homeserver.Json.Basic

namespace Homeserver.Json

namespace Reader

/-! ## Blanks -/

def isBlank (c : Char) : Bool := c = ' ' || c = '\t' || c = '\n' || c = '\r'

def skip (s : List Char) : List Char := s.dropWhile isBlank

/-! ## Texts -/

/-- The value of a hexadecimal digit of either case. -/
def hexValue (c : Char) : Option Nat :=
  if '0' ≤ c ∧ c ≤ '9' then some (c.toNat - 48)
  else if 'a' ≤ c ∧ c ≤ 'f' then some (c.toNat - 87)
  else if 'A' ≤ c ∧ c ≤ 'F' then some (c.toNat - 55)
  else none

/-- The character that a letter after a backslash stands for. -/
def escaped (c : Char) : Option Char :=
  if c = '"' ∨ c = '\\' ∨ c = '/' then some c
  else if c = 'b' then some '\x08'
  else if c = 'f' then some '\x0c'
  else if c = 'n' then some '\n'
  else if c = 'r' then some '\r'
  else if c = 't' then some '\t'
  else none

/-- The first half of a pair of units that stand for one character above U+FFFF. -/
def isHigh (n : Nat) : Bool := 0xD800 ≤ n && n ≤ 0xDBFF

/-- The second half of such a pair. -/
def isLow (n : Nat) : Bool := 0xDC00 ≤ n && n ≤ 0xDFFF

/-- How far the reader of a text has come in an escape. -/
inductive Progress where
  /-- Between characters. -/
  | plain
  /-- After a backslash. -/
  | backslash
  /-- After `count` digits of an escaped unit, perhaps the second one of a pair. -/
  | unit (high : Option Nat) (count value : Nat)
  /-- After the first half of a pair. -/
  | half (high : Nat)
  /-- After the first half of a pair and a backslash. -/
  | halfBackslash (high : Nat)

/-- What the four digits of an escaped unit stand for: a character, or the first half of one. -/
def unitEnd (high : Option Nat) (value : Nat) : Option (Sum Char Nat) :=
  match high with
  | some h => if isLow value then
      some (.inl (Char.ofNat (0x10000 + 1024 * (h - 0xD800) + (value - 0xDC00)))) else none
  | none => if isHigh value then some (.inr value) else if isLow value then none
    else some (.inl (Char.ofNat value))

/-- The rest of a text up to its closing quote, and what follows that. -/
def text : Progress → List Char → Option (List Char × List Char)
  | _, [] => none
  | .plain, c :: rest =>
    if c = '"' then some ([], rest)
    else if c = '\\' then text .backslash rest
    else if c.toNat < 32 then none
    else (text .plain rest).map (fun (cs, r) => (c :: cs, r))
  | .backslash, c :: rest =>
    if c = 'u' then text (.unit none 0 0) rest
    else match escaped c with
      | some e => (text .plain rest).map (fun (cs, r) => (e :: cs, r))
      | none => none
  | .unit high count value, c :: rest =>
    match hexValue c with
    | none => none
    | some d =>
      if count < 3 then text (.unit high (count + 1) (16 * value + d)) rest
      else match unitEnd high (16 * value + d) with
        | some (.inl e) => (text .plain rest).map (fun (cs, r) => (e :: cs, r))
        | some (.inr h) => text (.half h) rest
        | none => none
  | .half h, c :: rest => if c = '\\' then text (.halfBackslash h) rest else none
  | .halfBackslash h, c :: rest => if c = 'u' then text (.unit (some h) 0 0) rest else none

/-! ## Numbers -/

def digit (c : Char) : Nat := c.toNat - 48

/-- The digits at the start of a text, and what follows them. -/
def digits (s : List Char) : List Char × List Char :=
  (s.takeWhile Char.isDigit, s.dropWhile Char.isDigit)

/-- Reads whole digits into a significand of 64 bits; the digits from the first one that does not
fit are only counted. -/
def whole (significand : Nat) : List Char → Nat × Nat
  | [] => (significand, 0)
  | c :: rest =>
    if 10 * significand + digit c < UInt64.size then whole (10 * significand + digit c) rest
    else (significand, rest.length + 1)

/-- Reads the digits of a fraction into a significand of 64 bits and counts them; the digits from
the first one that does not fit are dropped. -/
def fraction (significand : Nat) : List Char → Nat × Nat
  | [] => (significand, 0)
  | c :: rest =>
    if 10 * significand + digit c < UInt64.size then
      let (s, n) := fraction (10 * significand + digit c) rest
      (s, n + 1)
    else (significand, 0)

def natural (ds : List Char) : Nat := ds.foldl (fun n c => 10 * n + digit c) 0

/-- The digits before a point: a zero alone, or digits that start with no zero. -/
def wholePart (s : List Char) : Option (List Char × List Char) :=
  match digits s with
  | ([], _) => none
  | ('0' :: _ :: _, _) => none
  | r => some r

/-- The digits after a point, which are at least one if there is a point. -/
def fractionPart : List Char → Option (Option (List Char) × List Char)
  | '.' :: rest => match digits rest with
    | ([], _) => none
    | (ds, r) => some (some ds, r)
  | s => some (none, s)

/-- The digits of an exponent, with its sign. -/
def exponentDigits (negative : Bool) (s : List Char) : Option (Option Int × List Char) :=
  match digits s with
  | ([], _) => none
  | (ds, r) => some (some (if negative then -(natural ds : Int) else natural ds), r)

/-- The exponent at the start of a text, if there is one. -/
def exponentPart : List Char → Option (Option Int × List Char)
  | [] => some (none, [])
  | c :: rest =>
    if c = 'e' ∨ c = 'E' then
      match rest with
      | '+' :: r => exponentDigits false r
      | '-' :: r => exponentDigits true r
      | r => exponentDigits false r
    else some (none, c :: rest)

/-- The value of a number's parts. Without fraction and exponent it is an integer if it fits in 64
bits, with or without a sign; minus zero is a floating point number. -/
def numberOf (negative : Bool) (ds : List Char) (frac : Option (List Char)) (exp : Option Int) :
    Option Json :=
  let n := natural ds
  if frac.isNone ∧ exp.isNone ∧
      (if negative then 0 < n ∧ n ≤ UInt64.size / 2 else n < UInt64.size) then
    some (.int (if negative then -(n : Int) else n))
  else
    let (significand, dropped) := whole 0 ds
    let (significand, taken) := fraction significand (frac.getD [])
    (Double.ofDecimal negative significand ((dropped : Int) - taken + exp.getD 0)).map .double

/-- A number without its sign. -/
def unsigned (negative : Bool) (s : List Char) : Option (Json × List Char) := do
  let (ds, s) ← wholePart s
  let (frac, s) ← fractionPart s
  let (exp, s) ← exponentPart s
  let v ← numberOf negative ds frac exp
  return (v, s)

def number : List Char → Option (Json × List Char)
  | '-' :: rest => unsigned true rest
  | s => unsigned false s

/-! ## Values -/

/-- Values separated by commas up to the closing bracket. -/
def items (value : List Char → Option (Json × List Char)) :
    Nat → List Char → Option (List Json × List Char)
  | 0, _ => none
  | bound + 1, s =>
    match value s with
    | none => none
    | some (v, r) =>
      match skip r with
      | ',' :: r => (items value bound r).map (fun (vs, r) => (v :: vs, r))
      | ']' :: r => some ([v], r)
      | _ => none

/-- A key, a colon and a value. -/
def member (value : List Char → Option (Json × List Char)) (s : List Char) :
    Option ((String × Json) × List Char) :=
  match skip s with
  | '"' :: s =>
    match text .plain s with
    | none => none
    | some (key, r) =>
      match skip r with
      | ':' :: r => (value r).map (fun (v, r) => ((String.ofList key, v), r))
      | _ => none
  | _ => none

/-- Members separated by commas up to the closing brace. -/
def members (value : List Char → Option (Json × List Char)) :
    Nat → List Char → Option (List (String × Json) × List Char)
  | 0, _ => none
  | bound + 1, s =>
    match member value s with
    | none => none
    | some (m, r) =>
      match skip r with
      | ',' :: r => (members value bound r).map (fun (ms, r) => (m :: ms, r))
      | '}' :: r => some ([m], r)
      | _ => none

/-- What follows an opening bracket. -/
def array (value : List Char → Option (Json × List Char)) (s : List Char) :
    Option (Json × List Char) :=
  match skip s with
  | ']' :: r => some (.arr [], r)
  | _ => (items value s.length s).map (fun (vs, r) => (.arr vs, r))

/-- What follows an opening brace. -/
def object (value : List Char → Option (Json × List Char)) (s : List Char) :
    Option (Json × List Char) :=
  match skip s with
  | '}' :: r => some (.obj [], r)
  | _ => (members value s.length s).map (fun (ms, r) => (.obj (Table.ofList ms), r))

/-- The text after a word that stands for a value. -/
def word (w : List Char) (v : Json) (s : List Char) : Option (Json × List Char) :=
  if w.isPrefixOf s then some (v, s.drop w.length) else none

/-- A value without arrays and objects. -/
def scalar : List Char → Option (Json × List Char)
  | 'n' :: rest => word ['u', 'l', 'l'] .null rest
  | 't' :: rest => word ['r', 'u', 'e'] (.bool true) rest
  | 'f' :: rest => word ['a', 'l', 's', 'e'] (.bool false) rest
  | '"' :: rest => (text .plain rest).map (fun (cs, r) => (.str (String.ofList cs), r))
  | s => number s

/-- A value in which arrays and objects are nested at most `depth` deep, after any blanks. -/
def value : Nat → List Char → Option (Json × List Char)
  | 0, s => match skip s with
    | '[' :: _ => none
    | '{' :: _ => none
    | s => scalar s
  | depth + 1, s => match skip s with
    | '[' :: rest => array (value depth) rest
    | '{' :: rest => object (value depth) rest
    | s => scalar s

end Reader

/-- The deepest nesting of arrays and objects that is read. -/
def maxDepth : Nat := 127

/-- The value that a text stands for. -/
def read? (s : String) : Option Json :=
  match Reader.value maxDepth s.toList with
  | some (v, rest) => if Reader.skip rest = [] then some v else none
  | none => none

end Homeserver.Json
