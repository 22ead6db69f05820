/-
Absolute URLs: how they are read from a text, how a relative path and further segments extend them,
and their text. In the special schemes a host is required and a backslash counts as a slash.
-/
import Homeserver.Net.Form
import Homeserver.Net.SocketAddress

namespace Homeserver

/-- Why a text is no URL, or why no URL is reached from another one. -/
inductive UrlError where
  | noScheme
  | emptyHost
  | badPort
  | badAddress
  | badDomain
  /-- The URL to start from has no hierarchical path. -/
  | opaqueBase
  deriving DecidableEq, Repr

namespace UrlError

def message : UrlError → String
  | noScheme => "relative URL without a base"
  | emptyHost => "empty host"
  | badPort => "invalid port number"
  | badAddress => "invalid IPv6 address"
  | badDomain => "invalid international domain name"
  | opaqueBase => "relative URL with a cannot-be-a-base base"

end UrlError

/-- A path is a list of segments, each of which follows a slash, or a text without structure. -/
inductive UrlPath where
  | segments (items : List (List Char))
  | plain (text : List Char)
  deriving DecidableEq, Repr

/-- An absolute URL. The parts are kept as they are written in a URL. -/
structure Url where
  scheme : List Char
  /-- User, host and port. -/
  authority : Option (List Char)
  path : UrlPath
  query : Option (List Char)
  fragment : Option (List Char)
  deriving DecidableEq, Repr

namespace Url

/-! ## Characters -/

def isSpecial (scheme : List Char) : Bool :=
  ["http", "https", "ws", "wss", "ftp"].any (fun s => s.toList = scheme)

/-- Visible characters of ASCII outside a list. -/
def isVisibleBut (excluded : String) (c : Char) : Bool :=
  33 ≤ c.toNat && c.toNat < 127 && !excluded.toList.contains c

/-- What a path keeps of a text in which percent encoding may occur already. -/
def keepsInPath : Char → Bool := isVisibleBut "\"#<>?`\x7b\x7d"

/-- What a single segment keeps; a slash or a percent sign is encoded. -/
def keepsInSegment (special : Bool) : Char → Bool :=
  isVisibleBut (if special then "\"#<>?`\x7b\x7d/%\\" else "\"#<>?`\x7b\x7d/%")

def keepsInQuery (special : Bool) : Char → Bool :=
  isVisibleBut (if special then "\"#<>'" else "\"#<>")

def keepsInFragment : Char → Bool := isVisibleBut "\"<>`"

def keepsInPlain (c : Char) : Bool := 32 ≤ c.toNat && c.toNat < 127

/-- Characters that count for nothing in the text of a URL. -/
def isIgnored (c : Char) : Bool := c = '\t' || c = '\n' || c = '\r'

/-- The text of a URL without the controls and spaces at its ends. -/
def trimEnds (s : List Char) : List Char :=
  let blank := fun (c : Char) => c.toNat ≤ 32
  ((s.dropWhile blank).reverse.dropWhile blank).reverse

def isSlash (special : Bool) (c : Char) : Bool := c = '/' || (special && c = '\\')

/-- Ends of the part before a path. -/
def endsAuthority (special : Bool) (c : Char) : Bool := isSlash special c || c = '?' || c = '#'

/-! ## Paths -/

def isSingleDot (s : List Char) : Bool :=
  [".", "%2e"].any (fun d => d.toList = s.map Char.toLower)

def isDoubleDot (s : List Char) : Bool :=
  ["..", "%2e.", ".%2e", "%2e%2e"].any (fun d => d.toList = s.map Char.toLower)

/-- Puts a segment behind others. One dot stays and two dots go up; either leaves an empty segment
if it is the last. -/
def addSegment (path : List (List Char)) (segment : List Char) (last : Bool) : List (List Char) :=
  if isDoubleDot segment then if last then path.dropLast ++ [[]] else path.dropLast
  else if isSingleDot segment then if last then path ++ [[]] else path
  else path ++ [segment]

def addSegments (path : List (List Char)) : List (List Char) → List (List Char)
  | [] => path
  | [s] => addSegment path s true
  | s :: rest => addSegments (addSegment path s false) rest

/-- The segments of a text that starts after a path's first slash. -/
def readSegments (special : Bool) (s : List Char) : List (List Char) :=
  let slashed := s.map (fun c => if isSlash special c then '/' else c)
  (Text.splitAll '/' slashed).map (Percent.encode keepsInPath)

/-! ## Reading -/

/-- The scheme before a colon, and the text after it. -/
def readScheme (s : List Char) : Except UrlError (List Char × List Char) :=
  let isPart := fun (c : Char) => c.isAlphanum || c = '+' || c = '-' || c = '.'
  let scheme := s.takeWhile isPart
  match scheme, s.dropWhile isPart with
  | c :: _, ':' :: rest =>
    if c.isAlpha then .ok (scheme.map Char.toLower, rest) else .error .noScheme
  | _, _ => .error .noScheme

def defaultPort (scheme : List Char) : Option Nat :=
  match String.ofList scheme with
  | "http" | "ws" => some 80
  | "https" | "wss" => some 443
  | "ftp" => some 21
  | _ => none

/-- The text of a port behind its colon, and none for a scheme's default. -/
def readPort (scheme : List Char) (s : List Char) : Except UrlError (List Char) :=
  let n := s.foldl (fun n c => 10 * n + (c.toNat - 48)) 0
  if !s.all Char.isDigit || 65535 < n then .error .badPort
  else if s.isEmpty || defaultPort scheme = some n then .ok []
  else .ok (':' :: (toString n).toList)

/-- A host in brackets is an address; another one of a special scheme is a domain. -/
def readHost (special : Bool) (host : List Char) : Except UrlError (List Char) :=
  match host with
  | '[' :: inner =>
    if SocketAddress.address6 inner = some [']'] then .ok (host.map Char.toLower)
    else .error .badAddress
  | _ =>
    if !special then .ok (Percent.encode keepsInPlain host)
    else
      let domain := (Percent.lossyText (Percent.decode (Percent.bytes host))).map Char.toLower
      if domain.all (fun c => c.toNat ≥ 128 || isVisibleBut "#%/:<>?@[\\]^|`\x7b\x7d\"" c) then
        .ok domain
      else .error .badDomain

/-- The host of a host and port, up to the first colon outside brackets. -/
def splitPort (s : List Char) : List Char × Option (List Char) :=
  match s with
  | '[' :: _ =>
    match Text.splitFirst ']' s with
    | some (a, ':' :: port) => (a ++ [']'], some port)
    | some (a, rest) => (a ++ ']' :: rest, none)
    | none => (s, none)
  | _ =>
    match Text.splitFirst ':' s with
    | some (host, port) => (host, some port)
    | none => (s, none)

/-- Reads the part between the slashes and the path. -/
def readAuthority (scheme : List Char) (s : List Char) : Except UrlError (List Char) := do
  let hostAndPort := (s.reverse.takeWhile (· ≠ '@')).reverse
  let user := s.take (s.length - hostAndPort.length)
  let (host, port) := splitPort hostAndPort
  if host.isEmpty && (isSpecial scheme || port.isSome || !user.isEmpty) then throw .emptyHost
  let host ← readHost (isSpecial scheme) host
  let port ← readPort scheme (port.getD [])
  return user ++ host ++ port

/-- The query and the fragment at the end of a URL. -/
def readEnd (special : Bool) (s : List Char) : Option (List Char) × Option (List Char) :=
  let query := s.takeWhile (· ≠ '#')
  let fragment := s.dropWhile (· ≠ '#')
  ((match query with
    | '?' :: rest => some (Percent.encode (keepsInQuery special) rest)
    | _ => none),
  match fragment with
    | _ :: rest => some (Percent.encode keepsInFragment rest)
    | [] => none)

def startsEnd (c : Char) : Bool := c = '?' || c = '#'

/-- Reads what follows the slashes before a host. -/
def readHierarchy (scheme : List Char) (s : List Char) : Except UrlError Url := do
  let special := isSpecial scheme
  let authority ← readAuthority scheme (s.takeWhile (fun c => !endsAuthority special c))
  let rest := s.dropWhile (fun c => !endsAuthority special c)
  let path := rest.takeWhile (fun c => !startsEnd c)
  let (query, fragment) := readEnd special (rest.dropWhile (fun c => !startsEnd c))
  let segments := match path with
    | [] => if special then [[]] else []
    | _ :: path => addSegments [] (readSegments special path)
  return { scheme, authority := some authority, path := .segments segments, query, fragment }

/-- Reads what follows a scheme that requires no host. -/
def readPlain (scheme : List Char) (s : List Char) : Url :=
  let path := s.takeWhile (fun c => !startsEnd c)
  let (query, fragment) := readEnd false (s.dropWhile (fun c => !startsEnd c))
  let path := match path with
    | '/' :: rest => UrlPath.segments (addSegments [] (readSegments false rest))
    | _ => UrlPath.plain (Percent.encode keepsInPlain path)
  { scheme, authority := none, path, query, fragment }

/-- Reads an absolute URL. -/
def read (text : String) : Except UrlError Url := do
  let (scheme, rest) ← readScheme ((trimEnds text.toList).filter (fun c => !isIgnored c))
  if isSpecial scheme then readHierarchy scheme (rest.dropWhile (isSlash true))
  else
    match rest with
    | '/' :: '/' :: rest => readHierarchy scheme rest
    | _ => return readPlain scheme rest

/-! ## Extending -/

/-- The URL that a relative path leads to: it replaces the last segment. -/
def join (u : Url) (relative : List String) : Except UrlError Url :=
  match u.path with
  | .plain _ => .error .opaqueBase
  | .segments items =>
    let path := UrlPath.segments (items.dropLast ++ relative.map String.toList)
    .ok { u with path, query := none, fragment := none }

/-- Puts one segment of a text behind a path; dots count for nothing, and an empty segment at the
end is filled. -/
def extendSegment (special : Bool) (path : List (List Char)) (segment : String) :
    List (List Char) :=
  let isDots := fun (s : List Char) => s = ['.'] || s = ['.', '.']
  if isDots segment.toList then path
  else
    let encoded := Percent.encode (keepsInSegment special)
      (segment.toList.filter (fun c => !isIgnored c))
    let path := if path = [[]] then [] else path
    addSegment path encoded true

/-- Puts segments behind a path, in the place of an empty last segment; nothing for a URL without a
hierarchical path. -/
def extend? (u : Url) (segments : List String) : Option Url :=
  match u.path with
  | .plain _ => none
  | .segments items =>
    let items := if items.getLast? = some [] && items.length ≠ 1 then items.dropLast else items
    let special := isSpecial u.scheme
    some { u with path := .segments (segments.foldl (extendSegment special) items) }

/-- Adds pairs to the query. -/
def addQuery (u : Url) (pairs : List (String × String)) : Url :=
  match pairs, u.query with
  | [], _ => u
  | _, none => { u with query := some (Form.encode pairs) }
  | _, some [] => { u with query := some (Form.encode pairs) }
  | _, some q => { u with query := some (q ++ '&' :: Form.encode pairs) }

/-! ## Text -/

def pathText (u : Url) : List Char :=
  match u.path with
  | .segments items => items.flatMap (fun s => '/' :: s)
  | .plain s => s

/-- The path with the query, as a request names them. -/
def target (u : Url) : String :=
  String.ofList (u.pathText ++ (u.query.map (fun q => '?' :: q)).getD [])

def text (u : Url) : String :=
  String.ofList (u.scheme ++ ':' :: ((u.authority.map (fun a => '/' :: '/' :: a)).getD [])) ++
    u.target ++ String.ofList ((u.fragment.map (fun f => '#' :: f)).getD [])

/-- Whether requests can be sent to the URL. -/
def isWeb (u : Url) : Bool := u.scheme = "http".toList || u.scheme = "https".toList

end Url

end Homeserver
