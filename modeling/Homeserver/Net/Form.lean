/-
Form encoding: pairs of names and values as the query of a URL has them, `name=value` between `&`
signs, with `+` for a space.
-/
import Homeserver.Net.Percent
import Homeserver.Text.Blank

namespace Homeserver.Form

/-! ## Encoding -/

/-- The characters that form encoding keeps. -/
def isKept (c : Char) : Bool :=
  c.isAlphanum || c = '*' || c = '-' || c = '.' || c = '_'

def encodeChar (c : Char) : List Char := if c = ' ' then ['+'] else Percent.encodeChar isKept c

def encodePart (s : String) : List Char := s.toList.flatMap encodeChar

def encodePair (pair : String × String) : List Char :=
  encodePart pair.1 ++ '=' :: encodePart pair.2

/-- The query that holds these pairs in order. -/
def encode (pairs : List (String × String)) : List Char :=
  ['&'].intercalate (pairs.map encodePair)

/-! ## Decoding -/

/-- The text that a part of a query stands for. -/
def decodePart (s : List Char) : String :=
  String.ofList (Percent.lossyText (Percent.decode (Percent.bytes
    (s.map (fun c => if c = '+' then ' ' else c)))))

def decodePair (s : List Char) : String × String :=
  match Text.splitFirst '=' s with
  | some (name, value) => (decodePart name, decodePart value)
  | none => (decodePart s, "")

/-- The pairs of a query; pieces without any text count for nothing. -/
def decode (query : List Char) : List (String × String) :=
  ((Text.splitAll '&' query).filter (fun s => !s.isEmpty)).map decodePair

end Homeserver.Form
