/-
JSON pointers: the reference tokens that lead from a value to a value inside it. In the text of a
pointer each token follows a `/`, and `~1` stands for `/` and `~0` for `~`.
-/
import Homeserver.Json.Basic

namespace Homeserver.Json

namespace Pointer

/-- Reads the escapes of a reference token. -/
def unescape : List Char → List Char
  | '~' :: '1' :: rest => '/' :: unescape rest
  | '~' :: '0' :: rest => '~' :: unescape rest
  | c :: rest => c :: unescape rest
  | [] => []

/-- A reference token as it stands in a pointer. -/
def escape (token : List Char) : List Char :=
  token.flatMap (fun c =>
    if c = '~' then ['~', '0'] else if c = '/' then ['~', '1'] else [c])

/-- The text of the pointer with these reference tokens. -/
def text (tokens : List String) : String :=
  String.ofList (tokens.flatMap (fun token => '/' :: escape token.toList))

/-- The pieces of a text between its slashes. -/
def pieces (text : List Char) : List (List Char) :=
  text.foldr (fun c ps => if c = '/' then [] :: ps else
    match ps with
    | [] => [[c]]
    | p :: rest => (c :: p) :: rest) [[]]

/-- The tokens of a pointer, which is empty or starts with `/`. -/
def tokens? : List Char → Option (List String)
  | [] => some []
  | '/' :: rest => some ((pieces rest).map (fun p => String.ofList (unescape p)))
  | _ => none

/-- The index that a token names in an array: digits without a leading zero. -/
def index? (token : String) : Option Nat :=
  match token.toList with
  | [] => none
  | '0' :: _ :: _ => none
  | digits => if digits.all Char.isDigit then
      some (digits.foldl (fun n c => 10 * n + (c.toNat - '0'.toNat)) 0)
    else none

end Pointer

/-- The value that one reference token names in a value. -/
def step? (token : String) : Json → Option Json
  | .obj members => Table.find? token members
  | .arr items => (Pointer.index? token).bind (fun i => items[i]?)
  | _ => none

/-- The value reached by these reference tokens. -/
def walk? (v : Json) : List String → Option Json
  | [] => some v
  | token :: rest => (v.step? token).bind (·.walk? rest)

/-- The value that the text of a pointer leads to. -/
def pointer? (v : Json) (text : String) : Option Json :=
  (Pointer.tokens? text.toList).bind v.walk?

end Homeserver.Json
