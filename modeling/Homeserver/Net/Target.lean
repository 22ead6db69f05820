/-
The targets of requests, as they are written behind the method. Servers name a path with a query to
one another. A request in absolute form, as it comes over a proxy or as one of HTTP/2, names the
scheme and the authority before that; it is routed by its path all the same.
-/
import Homeserver.Text.Blank

namespace Homeserver

/-- What a request asks for. The parts are kept as they are written. -/
structure Target where
  scheme : Option (List Char) := none
  /-- User, host and port. -/
  authority : Option (List Char) := none
  /-- The path by which the request is routed. It is empty behind an authority without a scheme. -/
  path : List Char
  query : Option (List Char) := none
  deriving DecidableEq, Repr

namespace Target

/-- The target of a path that a query may follow. -/
def ofPath (text : List Char) : Target :=
  match Text.splitFirst '?' text with
  | some (path, query) => { path, query := some query }
  | none => { path := text }

/-- The schemes of the web do not depend on case. -/
def schemeOf (text : List Char) : List Char :=
  let lower := text.map Char.toLower
  if lower = "http".toList || lower = "https".toList then lower else text

/-- The target that is written so; a fragment is no part of what is asked for. -/
def ofText (text : String) : Target :=
  let written := text.toList.takeWhile (· ≠ '#')
  if written.head? = some '/' ∨ written = ['*'] then ofPath written
  else
    match Text.splitFirst ':' written with
    | some (scheme, '/' :: '/' :: rest) =>
      let authority := rest.takeWhile (fun c => c ≠ '/' && c ≠ '?')
      let behind := ofPath (rest.drop authority.length)
      { behind with
        scheme := some (schemeOf scheme)
        authority := some authority
        path := if behind.path.isEmpty then ['/'] else behind.path }
    | _ => { authority := some written, path := [] }

/-- The text of a target. -/
def text (t : Target) : String :=
  String.ofList ((t.scheme.map (· ++ "://".toList)).getD [] ++ t.authority.getD [] ++ t.path ++
    (t.query.map (fun q => '?' :: q)).getD [])

end Target

/-- A server is asked for the same path in each form. -/
example : (Target.ofText "/a?b").path = "/a".toList ∧
    (Target.ofText "HTTP://h:80/a?b#c").path = "/a".toList ∧
    (Target.ofText "HTTP://h:80/a?b#c").text = "http://h:80/a?b" ∧
    (Target.ofText "http://h").text = "http://h/" ∧ (Target.ofText "h:80").path = [] := by
  decide

end Homeserver
