/-
The quoted texts of TOML: basic ones with escapes and literal ones without, on one line between
single delimiters or on several lines between triple ones.
-/
namespace Homeserver.Toml.Text

/-! ## Characters -/

/-- The characters that may stand in a text or a comment. -/
def isPrintable (c : Char) : Bool := c = '\t' || (32 ≤ c.toNat && c.toNat ≠ 127)

def hexValue (c : Char) : Option Nat :=
  if '0' ≤ c ∧ c ≤ '9' then some (c.toNat - 48)
  else if 'a' ≤ c ∧ c ≤ 'f' then some (c.toNat - 87)
  else if 'A' ≤ c ∧ c ≤ 'F' then some (c.toNat - 55)
  else none

/-- The character that a letter after a backslash stands for. -/
def escaped (c : Char) : Option Char :=
  if c = 'b' then some '\x08'
  else if c = 't' then some '\t'
  else if c = 'n' then some '\n'
  else if c = 'f' then some '\x0c'
  else if c = 'r' then some '\r'
  else if c = '"' ∨ c = '\\' then some c
  else none

/-- The character with this code point, if there is one. -/
def scalar? (n : Nat) : Option Char :=
  if n < 0xD800 ∨ (0xE000 ≤ n ∧ n < 0x110000) then some (Char.ofNat n) else none

/-! ## Basic texts -/

/-- How far the reader of a basic text has come. -/
inductive Progress where
  /-- Between characters; when trimming, blanks and line ends are dropped. -/
  | plain (trimming : Bool)
  | backslash
  /-- Between a backslash and the end of its line. -/
  | lineEnd
  /-- In an escaped code point, before `left` more digits. -/
  | unit (left value : Nat)

def cons (c : Char) (r : Option (List Char × List Char)) : Option (List Char × List Char) :=
  r.map (fun (cs, rest) => (c :: cs, rest))

/-- The rest of a basic text up to its closing quotes, and what follows them. -/
def basic (multi : Bool) : Progress → List Char → Option (List Char × List Char)
  | _, [] => none
  | .plain trimming, c :: rest =>
    if c = '"' then
      if multi then
        match rest with
        | '"' :: '"' :: '"' :: '"' :: r => some (['"', '"'], r)
        | '"' :: '"' :: '"' :: r => some (['"'], r)
        | '"' :: '"' :: r => some ([], r)
        | _ => cons '"' (basic multi (.plain false) rest)
      else some ([], rest)
    else if c = '\\' then basic multi .backslash rest
    else if multi ∧ c = '\n' then
      if trimming then basic multi (.plain true) rest
      else cons '\n' (basic multi (.plain false) rest)
    else if multi ∧ c = '\r' then
      if rest.head? = some '\n' then basic multi (.plain trimming) rest else none
    else if trimming ∧ (c = ' ' ∨ c = '\t') then basic multi (.plain true) rest
    else if isPrintable c then cons c (basic multi (.plain false) rest)
    else none
  | .backslash, c :: rest =>
    if c = 'u' then basic multi (.unit 4 0) rest
    else if c = 'U' then basic multi (.unit 8 0) rest
    else if multi ∧ (c = ' ' ∨ c = '\t') then basic multi .lineEnd rest
    else if multi ∧ c = '\n' then basic multi (.plain true) rest
    else if multi ∧ c = '\r' then
      if rest.head? = some '\n' then basic multi .lineEnd rest else none
    else match escaped c with
      | some e => cons e (basic multi (.plain false) rest)
      | none => none
  | .lineEnd, c :: rest =>
    if c = '\n' then basic multi (.plain true) rest
    else if c = ' ' ∨ c = '\t' then basic multi .lineEnd rest
    else if c = '\r' ∧ rest.head? = some '\n' then basic multi .lineEnd rest
    else none
  | .unit left value, c :: rest =>
    match hexValue c with
    | none => none
    | some d =>
      if 1 < left then basic multi (.unit (left - 1) (16 * value + d)) rest
      else match scalar? (16 * value + d) with
        | some e => cons e (basic multi (.plain false) rest)
        | none => none

/-! ## Literal texts -/

/-- The rest of a literal text up to its closing quotes, and what follows them. -/
def literal (multi : Bool) : List Char → Option (List Char × List Char)
  | [] => none
  | c :: rest =>
    if c = '\'' then
      if multi then
        match rest with
        | '\'' :: '\'' :: '\'' :: '\'' :: r => some (['\'', '\''], r)
        | '\'' :: '\'' :: '\'' :: r => some (['\''], r)
        | '\'' :: '\'' :: r => some ([], r)
        | _ => cons '\'' (literal multi rest)
      else some ([], rest)
    else if multi ∧ c = '\n' then cons '\n' (literal multi rest)
    else if multi ∧ c = '\r' then
      if rest.head? = some '\n' then literal multi rest else none
    else if isPrintable c then cons c (literal multi rest)
    else none

/-! ## All texts -/

/-- A text without the line end at its start. -/
def dropLineEnd : List Char → List Char
  | '\n' :: rest => rest
  | '\r' :: '\n' :: rest => rest
  | s => s

/-- A text on one line. -/
def singleLine : List Char → Option (List Char × List Char)
  | '"' :: rest => basic false (.plain false) rest
  | '\'' :: rest => literal false rest
  | _ => none

/-- A text of any form. -/
def any : List Char → Option (List Char × List Char)
  | '"' :: '"' :: '"' :: rest => basic true (.plain false) (dropLineEnd rest)
  | '\'' :: '\'' :: '\'' :: rest => literal true (dropLineEnd rest)
  | s => singleLine s

end Homeserver.Toml.Text
