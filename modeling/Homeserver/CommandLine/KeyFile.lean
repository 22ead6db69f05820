/-
Key files: the seed of a key in base64, between blanks and with or without padding.
-/
import Homeserver.Config
import Homeserver.Identity

namespace Homeserver

/-- Why a key file gives no key. -/
inductive KeyFileError where
  | unreadable (path : String)
  | notBase64
  | length (bytes : Nat)
  deriving DecidableEq, Repr

namespace KeyFileError

def message : KeyFileError → String
  | unreadable path => "failed to read signing key " ++ path
  | notBase64 => "signing key is not valid base64"
  | length bytes => "signing key seed is " ++ toString bytes ++ " bytes, expected 32"

end KeyFileError

namespace KeyFile

/-- The key in the text of a key file. -/
def read (contents : String) : Except KeyFileError Ed25519.SecretKey :=
  match Base64.decode? .standard (trimPadding (Text.trim contents)) with
  | none => .error .notBase64
  | some seed => if seed.length = 32 then .ok ⟨seed⟩ else .error (.length seed.length)

/-- The key in the file at a path. -/
def load (path : String) : Config.File → Except KeyFileError Ed25519.SecretKey
  | .text contents => read contents
  | .missing | .unreadable => .error (.unreadable path)

end KeyFile

end Homeserver
