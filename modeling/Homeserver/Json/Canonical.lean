/-
The canonical text of a JSON value: members in the order in which the value holds them, no
whitespace between tokens, and only `"`, `\` and the characters below U+0020 escaped.
-/
import Homeserver.Json.Basic
import Homeserver.Number.Shortest

namespace Homeserver.Json

namespace Canonical

/-! ## Scalars -/

/-- The lower case digit for a number below 16. -/
def hexDigit (n : Nat) : Char := if n < 10 then Char.ofNat (48 + n) else Char.ofNat (87 + n)

/-- A character as it stands in a quoted text. -/
def escape (c : Char) : List Char :=
  if c = '"' then ['\\', '"']
  else if c = '\\' then ['\\', '\\']
  else if c = '\n' then ['\\', 'n']
  else if c = '\r' then ['\\', 'r']
  else if c = '\t' then ['\\', 't']
  else if c = '\x08' then ['\\', 'b']
  else if c = '\x0c' then ['\\', 'f']
  else if c.toNat < 32 then
    ['\\', 'u', '0', '0', hexDigit (c.toNat / 16), hexDigit (c.toNat % 16)]
  else [c]

/-- A text between quotes. -/
def quote (s : List Char) : List Char := '"' :: (s.flatMap escape ++ ['"'])

def integer (n : Int) : List Char :=
  if n < 0 then '-' :: Nat.toDigits 10 n.natAbs else Nat.toDigits 10 n.natAbs

/-! ## Values -/

mutual

/-- The text of a value. -/
def write : Json → List Char
  | .null => ['n', 'u', 'l', 'l']
  | .bool true => ['t', 'r', 'u', 'e']
  | .bool false => ['f', 'a', 'l', 's', 'e']
  | .int n => integer n
  | .double x => x.text
  | .str s => quote s.toList
  | .arr items => '[' :: writeItems items
  | .obj members => '{' :: writeMembers members

/-- What follows the opening bracket of an array. -/
def writeItems : List Json → List Char
  | [] => [']']
  | [v] => write v ++ [']']
  | v :: rest => write v ++ ',' :: writeItems rest

/-- What follows the opening brace of an object. -/
def writeMembers : List (String × Json) → List Char
  | [] => ['}']
  | [(k, v)] => quote k.toList ++ ':' :: (write v ++ ['}'])
  | (k, v) :: rest => quote k.toList ++ ':' :: (write v ++ ',' :: writeMembers rest)

end

end Canonical

/-- The canonical text of a value. -/
def canonical (v : Json) : String := String.ofList (Canonical.write v)

/-- The canonical text as the bytes that are hashed and signed. -/
def canonicalBytes (v : Json) : List UInt8 := v.canonical.toUTF8.data.toList

end Homeserver.Json
