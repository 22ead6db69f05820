/-
Patterns of paths: words between slashes, followed by parameters that stand for any text.
-/
import Homeserver.Net.Percent
import Homeserver.Text.Blank

namespace Homeserver

/-- A path that starts with these words and goes on with these parameters. -/
structure PathPattern where
  words : List String
  parameters : List String := []
  deriving DecidableEq, Repr

namespace PathPattern

/-- The pieces between the slashes of a path, which starts with a slash. -/
def pieces? (path : List Char) : Option (List (List Char)) :=
  match path with
  | '/' :: rest => some (Text.splitAll '/' rest)
  | _ => none

/-- The pattern of a path without parameters. -/
def ofPath (path : String) : PathPattern :=
  ⟨((pieces? path.toList).getD []).map String.ofList, []⟩

/-- What pieces hold in the place of the parameters; a parameter is never empty. -/
def matchPieces (p : PathPattern) (pieces : List (List Char)) : Option (List (List Char)) :=
  let values := pieces.drop p.words.length
  if pieces.take p.words.length = p.words.map String.toList ∧
      values.length = p.parameters.length ∧ values.all (fun v => !v.isEmpty) then
    some values
  else none

/-- What a path holds in the place of the parameters, as it is written in the path; nothing for a
path of another form. -/
def match? (p : PathPattern) (path : List Char) : Option (List (List Char)) :=
  (pieces? path).bind p.matchPieces

/-- The texts for which percent encoded parameters stand, or the name of the first that stands for
no text. -/
def decode : List String → List (List Char) → Except String (List String)
  | name :: names, value :: values =>
    match Percent.text? (Percent.decode (Percent.bytes value)) with
    | some text => do return text :: (← decode names values)
    | none => .error name
  | _, _ => .ok []

end PathPattern

end Homeserver
