/-
Percent encoding: bytes that a URL cannot hold, written as `%` and two hexadecimal digits; and the
texts that bytes stand for in UTF-8.
-/
namespace Homeserver.Percent

/-! ## Encoding -/

/-- A hexadecimal digit, in upper case. -/
def digit (n : Nat) : Char := Char.ofNat (if n < 10 then 48 + n else 55 + n)

def encodeByte (b : UInt8) : List Char := ['%', digit (b.toNat / 16), digit (b.toNat % 16)]

/-- A character, in percent encoding unless it is kept. -/
def encodeChar (keep : Char → Bool) (c : Char) : List Char :=
  if keep c then [c] else (String.singleton c).toUTF8.toList.flatMap encodeByte

/-- A text with the characters encoded that are not kept. -/
def encode (keep : Char → Bool) (s : List Char) : List Char := s.flatMap (encodeChar keep)

/-! ## Decoding -/

/-- The value of a hexadecimal digit in ASCII, in either case. -/
def digitValue (b : UInt8) : Option Nat :=
  let n := b.toNat
  if 48 ≤ n ∧ n ≤ 57 then some (n - 48)
  else if 65 ≤ n ∧ n ≤ 70 then some (n - 55)
  else if 97 ≤ n ∧ n ≤ 102 then some (n - 87)
  else none

/-- The bytes that percent encoded bytes stand for; a `%` without two digits stands for itself. -/
def decode : List UInt8 → List UInt8
  | [] => []
  | [a] => [a]
  | [a, b] => [a, b]
  | a :: b :: c :: rest =>
    match a == 37, digitValue b, digitValue c with
    | true, some h, some l => UInt8.ofNat (16 * h + l) :: decode rest
    | _, _, _ => a :: decode (b :: c :: rest)

/-! ## Texts -/

/-- The bytes of a text. -/
def bytes (s : List Char) : List UInt8 := (String.ofList s).toUTF8.toList

/-- The text that bytes encode, if they are well formed. -/
def text? (bs : List UInt8) : Option String := String.fromUTF8? ⟨bs.toArray⟩

/-- How many bytes follow a leading byte, and the bounds of the first of them. -/
def sequence? (b : UInt8) : Option (Nat × Nat × Nat) :=
  let n := b.toNat
  if 0xC2 ≤ n ∧ n ≤ 0xDF then some (1, 0x80, 0xBF)
  else if n = 0xE0 then some (2, 0xA0, 0xBF)
  else if n = 0xED then some (2, 0x80, 0x9F)
  else if 0xE1 ≤ n ∧ n ≤ 0xEF then some (2, 0x80, 0xBF)
  else if n = 0xF0 then some (3, 0x90, 0xBF)
  else if 0xF1 ≤ n ∧ n ≤ 0xF3 then some (3, 0x80, 0xBF)
  else if n = 0xF4 then some (3, 0x80, 0x8F)
  else none

/-- The continuation bytes at the start, at most `n` of them; the first lies in these bounds. -/
def continuation (n low high : Nat) (bs : List UInt8) : List UInt8 :=
  match n, bs with
  | n + 1, b :: rest =>
    if low ≤ b.toNat ∧ b.toNat ≤ high then b :: continuation n 0x80 0xBF rest else []
  | _, _ => []

/-- The text that bytes encode, in which U+FFFD stands for each longest part of a sequence that is
not well formed. -/
def lossyText (bs : List UInt8) : List Char :=
  match bs with
  | [] => []
  | b :: rest =>
    if b.toNat < 0x80 then Char.ofNat b.toNat :: lossyText rest
    else
      match sequence? b with
      | none => Char.ofNat 0xFFFD :: lossyText rest
      | some (n, low, high) =>
        let tail := continuation n low high rest
        let c := if tail.length = n then
            Char.ofNat (tail.foldl (fun v b => 64 * v + b.toNat % 64)
              (b.toNat % Nat.pow 2 (6 - n)))
          else Char.ofNat 0xFFFD
        c :: lossyText (rest.drop tail.length)
termination_by bs.length
decreasing_by all_goals (simp only [List.length_cons, List.length_drop]; omega)

end Homeserver.Percent
