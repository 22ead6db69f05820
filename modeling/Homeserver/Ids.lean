/-
Identifiers of users, rooms and aliases: a sigil, a local part and the name of a server, which may
contain a port and so colons.
-/
import Homeserver.Text.Blank

namespace Homeserver.Ids

/-- An identifier; sigils before the local part are taken for the identifier's own. -/
def build (sigil : Char) (localpart server : String) : String :=
  String.ofList (sigil :: (localpart.toList.dropWhile (· = sigil) ++ ':' :: server.toList))

def userId (localpart server : String) : String := build '@' localpart server

def roomAlias (localpart server : String) : String := build '#' localpart server

def roomId (opaqueId server : String) : String := build '!' opaqueId server

/-- The server that an identifier names after its first colon. -/
def serverName? (id : String) : Option String :=
  match Text.splitFirst ':' id.toList with
  | some (_, []) => none
  | some (_, server) => some (String.ofList server)
  | none => none

/-- The local part between the sigil and the first colon; a sigil of more than one byte is none. -/
def localpart? (id : String) : Option String :=
  match Text.splitFirst ':' id.toList with
  | some (sigil :: rest, _) => if sigil.toNat < 128 then some (String.ofList rest) else none
  | _ => none

end Homeserver.Ids
