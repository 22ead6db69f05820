/-
The text of socket addresses: `a.b.c.d:port`, or an address of version 6 in brackets before its
port.
-/
import Homeserver.Text.Blank

namespace Homeserver.SocketAddress

/-! ## Numbers -/

def digitValue (c : Char) : Option Nat :=
  if '0' ≤ c ∧ c ≤ '9' then some (c.toNat - 48)
  else if 'a' ≤ c ∧ c ≤ 'f' then some (c.toNat - 87)
  else if 'A' ≤ c ∧ c ≤ 'F' then some (c.toNat - 55)
  else none

def isDigitOf (radix : Nat) (c : Char) : Bool := (digitValue c).any (· < radix)

/-- The number at the start of a text, which must be below `bound`. -/
def number (radix bound : Nat) (s : List Char) : Option (Nat × List Char) :=
  let digits := s.takeWhile (isDigitOf radix)
  let n := digits.foldl (fun n c => radix * n + (digitValue c).getD 0) 0
  if digits.isEmpty ∨ bound ≤ n then none else some (n, s.dropWhile (isDigitOf radix))

/-- A number of at most `most` digits. -/
def shortNumber (radix bound most : Nat) (s : List Char) : Option (Nat × List Char) :=
  if most < (s.takeWhile (isDigitOf radix)).length then none else number radix bound s

/-! ## Addresses -/

/-- One part of an address of version 4: no leading zero. -/
def octet (s : List Char) : Option (Nat × List Char) :=
  match s with
  | '0' :: c :: _ => if isDigitOf 10 c then none else shortNumber 10 256 3 s
  | _ => shortNumber 10 256 3 s

/-- The text after an address of version 4. -/
def address4 (s : List Char) : Option (List Char) := do
  let (_, s) ← octet s
  let '.' :: s := s | none
  let (_, s) ← octet s
  let '.' :: s := s | none
  let (_, s) ← octet s
  let '.' :: s := s | none
  let (_, s) ← octet s
  return s

/-- The text after a colon, which the first group lacks. -/
def separator (first : Bool) : List Char → Option (List Char)
  | ':' :: s => if first then none else some s
  | s => if first then some s else none

/-- Reads up to `limit` groups of an address of version 6. Gives the number of groups, whether the
last two were an address of version 4, and the text after them. -/
def groups (first : Bool) : Nat → List Char → Nat × Bool × List Char
  | 0, s => (0, false, s)
  | limit + 1, s =>
    let four := if limit = 0 then none else (separator first s).bind address4
    match four with
    | some rest => (2, true, rest)
    | none =>
      match (separator first s).bind (shortNumber 16 65536 4) with
      | none => (0, false, s)
      | some (_, rest) =>
        let (n, four, rest) := groups false limit rest
        (n + 1, four, rest)

/-- The text after an address of version 6, of which two colons may stand for groups of zeros. -/
def address6 (s : List Char) : Option (List Char) :=
  let (head, four, rest) := groups true 8 s
  if head = 8 then some rest
  else if four then none
  else
    match rest with
    | ':' :: ':' :: rest => some (groups true (7 - head) rest).2.2
    | _ => none

/-- The text after a scope of an address, if there is one. -/
def scope (s : List Char) : List Char :=
  match s with
  | '%' :: rest => match number 10 UInt32.size rest with
    | some (_, rest) => rest
    | none => s
  | _ => s

/-- The port after an address, at the end of the text. -/
def port : List Char → Option Nat
  | ':' :: s => match number 10 65536 s with
    | some (n, []) => some n
    | _ => none
  | _ => none

/-- The port of a socket address; nothing for any other text. -/
def port? (s : String) : Option Nat :=
  match s.toList with
  | '[' :: rest => do
    let rest ← address6 rest
    let ']' :: rest := scope rest | none
    port rest
  | cs => (address4 cs).bind port

/-- Whether a text is a socket address. -/
def isValid (s : String) : Bool := (port? s).isSome

/-! ## This host -/

/-- Whether an address of version 4 leads back to this host, or stands for any of its addresses. -/
def isOwn4 (host : List Char) : Bool :=
  host = "0.0.0.0".toList ||
    (address4 host = some [] && "127.".toList.isPrefixOf host)

/-- Whether this host can listen at an address: at one that leads back to it or stands for any of
its own, also by the name `localhost`. -/
def isOwn (s : String) : Bool :=
  let cs := s.toList.reverse
  let host := (cs.dropWhile (· ≠ ':')).drop 1 |>.reverse
  let named := ["localhost", "[::1]", "[::]"].any (fun name => name.toList = host)
  (isOwn4 host || named) && (port (':' :: (cs.takeWhile (· ≠ ':')).reverse)).isSome

end Homeserver.SocketAddress
