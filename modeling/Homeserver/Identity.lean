/-
Servers as signers: the signatures they put into JSON objects, requests and key documents, and the
check of such a signature.
-/
import Homeserver.Event.Error
import Homeserver.Event.Hash

namespace Homeserver

open Ed25519 (SecretKey PublicKey)

/-- A server's name and the key with which it signs. -/
structure Identity where
  serverName : String
  keyId : String
  key : SecretKey
  deriving DecidableEq

/-- The bytes that are signed for a value. -/
def signableBytes : Json → Except EventError (List UInt8)
  | .obj members => .ok (Json.obj (signedMembers members)).canonicalBytes
  | _ => .error (.invalid .signedNotObject)

/-- An object's members, and none of a value that is no object or is absent. -/
def membersOf (v : Option Json) : Members := (v.bind Json.members?).getD []

/-- Sets the signature of a server and key in an object. Signatures, or those of the server, that
are no object are replaced. -/
def insertSignature (members : Members) (serverName keyId signature : String) : Members :=
  let servers := membersOf (Table.find? "signatures" members)
  let keys := Table.insert keyId (.str signature) (membersOf (Table.find? serverName servers))
  Table.insert "signatures" (.obj (Table.insert serverName (.obj keys) servers)) members

namespace Identity

/-! ## Signing -/

/-- The signature of some bytes. -/
def signBytes (s : Identity) (payload : List UInt8) : String :=
  Base64.encode .standard (Ed25519.sign s.key payload)

/-- Adds the server's signature to an object. -/
def signJson (s : Identity) (v : Json) : Except EventError Json := do
  let payload ← signableBytes v
  return .obj (insertSignature v.membersD s.serverName s.keyId (s.signBytes payload))

/-- The public key as other servers see it. -/
def publicKeyText (s : Identity) : String := Base64.encode .standard s.key.publicBytes

/-- For how many milliseconds a key document is valid: a day. -/
def keyValidity : Int := 24 * 60 * 60 * 1000

/-- The server's signed key document at a time in milliseconds. -/
def keyDocument (s : Identity) (now : Int) : Except EventError Json :=
  s.signJson (Json.object [
    ("server_name", .str s.serverName),
    ("valid_until_ts", .int (now + keyValidity)),
    ("verify_keys", .obj [(s.keyId, .obj [("key", .str s.publicKeyText)])]),
    ("old_verify_keys", .obj [])])

/-- What is signed of a request. -/
def requestObject (s : Identity) (method uri destination : String) (content : Option Json) : Json :=
  Json.object ([
    ("method", .str method),
    ("uri", .str uri),
    ("origin", .str s.serverName),
    ("destination", .str destination)] ++ (content.map (fun c => ("content", c))).toList)

/-- The authorization header of a request from this server. -/
def authorization (s : Identity) (method uri destination : String) (content : Option Json) :
    Except EventError String := do
  let payload ← signableBytes (s.requestObject method uri destination content)
  return "X-Matrix origin=\"" ++ s.serverName ++ "\",destination=\"" ++ destination ++ "\",key=\""
    ++ s.keyId ++ "\",sig=\"" ++ s.signBytes payload ++ "\""

end Identity

/-! ## Verifying -/

/-- The pointer to the signature of a server under a key. -/
def signaturePointer (serverName keyId : String) : String :=
  Json.Pointer.text ["signatures", serverName, keyId]

/-- Accepts an object that bears a server's signature under a key. -/
def verifyJson (v : Json) (serverName keyId : String) (key : PublicKey) :
    Except EventError Unit := do
  let some text := (v.pointer? (signaturePointer serverName keyId)).bind Json.string?
    | throw (.signature (.absent serverName keyId))
  let some signature := Base64.decode? .standard text
    | throw (.signature .notBase64)
  if signature.length ≠ 64 then throw (.signature (.rejected .length))
  let payload ← signableBytes v
  match Ed25519.verify key payload signature with
  | .ok () => return ()
  | .error reason => throw (.signature (.rejected reason))

/-- A text without the `=` signs at its end. -/
def trimPadding (text : String) : String :=
  String.ofList (text.toList.reverse.dropWhile (· = '=')).reverse

/-- Reads a public key; padding is ignored. -/
def decodeKey (text : String) : Except EventError PublicKey := do
  let some bytes := Base64.decode? .standard (trimPadding text)
    | throw (.signature .keyNotBase64)
  if bytes.length ≠ 32 then throw (.signature .keyLength)
  match PublicKey.ofBytes? bytes with
  | some key => return key
  | none => throw (.signature .keyPoint)

end Homeserver
