/-
The two hashes of an event: one of its content, which is written into the event, and one of its
redacted form, which is its id.
-/
import Homeserver.Bytes.Base64
import Homeserver.Digest.Sha256
import Homeserver.Event.Redaction
import Homeserver.Json.Canonical

namespace Homeserver

/-- The members that the content hash covers. -/
def hashedMembers (event : Json) : Members :=
  Table.erase "hashes" (Table.erase "signatures" (Table.erase "unsigned" event.membersD))

/-- The hash of an event without its signatures, its hashes and what servers add to it. -/
def contentHash (event : Json) : String :=
  Base64.encode .standard (Digest.Sha256.digest (Json.obj (hashedMembers event)).canonicalBytes)

/-- The members that are signed: all but the signatures and what servers add. -/
def signedMembers (members : Members) : Members :=
  Table.erase "unsigned" (Table.erase "signatures" members)

def idAlphabet (version : RoomVersion) : Base64.Alphabet :=
  if version.urlSafeIds then .urlSafe else .standard

/-- The id of an event: the hash of what is signed of its redacted form. It is defined for every
value, so that also a malformed event has an id under which it is refused. -/
def eventId (version : RoomVersion) (event : Json) : String :=
  "$" ++ Base64.encode (idAlphabet version)
    (Digest.Sha256.digest (Json.obj (signedMembers (redact version event).membersD)).canonicalBytes)

end Homeserver
