/-
Reading TOML text. Arrays and tables between braces may be nested 79 deep.
-/
import Homeserver.Toml.Scalar

namespace Homeserver.Toml

namespace Reader

/-! ## Blanks -/

def isSpace (c : Char) : Bool := c = ' ' || c = '\t'

def skip (s : List Char) : List Char := s.dropWhile isSpace

/-- The text after a comment, if there is one. -/
def comment : List Char → List Char
  | '#' :: rest => rest.dropWhile Text.isPrintable
  | s => s

/-- The text after a line end. -/
def lineEnd : List Char → Option (List Char)
  | '\n' :: rest => some rest
  | '\r' :: '\n' :: rest => some rest
  | _ => none

/-- The text after blanks, a comment and the end of the line or of the text. -/
def restOfLine (s : List Char) : Option (List Char) :=
  match comment (skip s) with
  | [] => some []
  | rest => lineEnd rest

/-- The text after blanks, comments and line ends. -/
def skipLines : Nat → List Char → List Char
  | 0, s => s
  | bound + 1, s =>
    match lineEnd (comment (skip s)) with
    | some rest => skipLines bound rest
    | none => comment (skip s)

/-! ## Keys -/

def isBareChar (c : Char) : Bool := c.isAlphanum || c = '_' || c = '-'

/-- A key without dots, bare or quoted. -/
def simpleKey (s : List Char) : Option (String × List Char) :=
  match s with
  | '"' :: _ | '\'' :: _ => (Text.singleLine s).map (fun (k, r) => (String.ofList k, r))
  | _ =>
    match s.takeWhile isBareChar with
    | [] => none
    | k => some (String.ofList k, s.dropWhile isBareChar)

/-- A key with its parts, after any blanks. -/
def key : Nat → List Char → Option (List String × List Char)
  | 0, _ => none
  | bound + 1, s => do
    let (k, rest) ← simpleKey (skip s)
    match skip rest with
    | '.' :: rest =>
      let (ks, rest) ← key bound rest
      return (k :: ks, rest)
    | rest => return ([k], rest)

/-! ## Values -/

/-- What follows an opening bracket: values separated by commas, over any number of lines. -/
def items (value : List Char → Option (Toml × List Char)) :
    Nat → List Char → Option (List Toml × List Char)
  | 0, _ => none
  | bound + 1, s =>
    match skipLines s.length s with
    | ']' :: rest => some ([], rest)
    | s => do
      let (v, rest) ← value s
      match skipLines rest.length rest with
      | ',' :: rest =>
        let (vs, rest) ← items value bound rest
        return (v :: vs, rest)
      | ']' :: rest => return ([v], rest)
      | _ => none

/-- A key, an equals sign and a value, put among the entries of a table. -/
def entry (value : List Char → Option (Toml × List Char)) (s : List Char) :
    Option (List String × Toml × List Char) := do
  let (k, rest) ← key s.length s
  let '=' :: rest := rest | none
  let (v, rest) ← value (skip rest)
  return (k, v, rest)

/-- What follows an opening brace after the entries read so far. -/
def inlineEntries (value : List Char → Option (Toml × List Char)) :
    Nat → Entries → List Char → Option (Entries × List Char)
  | 0, _, _ => none
  | bound + 1, entries, s => do
    let (k, v, rest) ← entry value s
    let entries ← setDotted v k entries
    match skip rest with
    | ',' :: rest => inlineEntries value bound entries rest
    | '}' :: rest => return (entries, rest)
    | _ => none

/-- A value in which arrays and tables are nested at most `depth` deep. -/
def value : Nat → List Char → Option (Toml × List Char)
  | depth, s =>
    match s with
    | '"' :: _ | '\'' :: _ => (Text.any s).map (fun (t, r) => (.str (String.ofList t), r))
    | '[' :: rest =>
      match depth with
      | 0 => none
      | depth + 1 => (items (value depth) rest.length rest).map (fun (vs, r) => (.arr vs, r))
    | '{' :: rest =>
      match depth with
      | 0 => none
      | depth + 1 =>
        match skip rest with
        | '}' :: rest => some (.table .inline [], rest)
        | rest => (inlineEntries (value depth) (rest.length + 1) [] rest).map
            (fun (t, r) => (.table .inline t, r))
    | _ => Scalar.read s

def maxDepth : Nat := 79

/-! ## Documents -/

/-- A document as far as it is read: its entries and the path of the table that the next ones go
into. -/
structure Document where
  entries : Entries
  path : List String

/-- A header: its path and whether it is in double brackets. -/
def header (s : List Char) : Option (List String × Bool × List Char) :=
  match s with
  | '[' :: s => do
    let (k, rest) ← key s.length s
    let ']' :: ']' :: rest := rest | none
    return (k, true, rest)
  | _ => do
    let (k, rest) ← key s.length s
    let ']' :: rest := rest | none
    return (k, false, rest)

/-- Goes on with the table of a header. -/
def Document.define (d : Document) (path : List String) (array : Bool) : Option Document := do
  let last ← path.getLast?
  let change := if array then openArrayTable last else openTable last
  let entries ← underHeader change path.dropLast d.entries
  return ⟨entries, path⟩

/-- Sets a key of the current table. -/
def Document.put (d : Document) (key : List String) (v : Toml) : Option Document :=
  (underHeader (setDotted v key) d.path d.entries).map (⟨·, d.path⟩)

/-- Reads the lines of a document after what was read before. -/
def lines : Nat → Document → List Char → Option Document
  | 0, _, _ => none
  | bound + 1, d, s =>
    match skipLines s.length s with
    | [] => some d
    | '[' :: rest => do
      let (path, array, rest) ← header rest
      lines bound (← d.define path array) (← restOfLine rest)
    | s => do
      let (k, v, rest) ← entry (value maxDepth) s
      lines bound (← d.put k v) (← restOfLine rest)

end Reader

/-- The entries of the document that a text stands for. -/
def read? (s : String) : Option Entries :=
  let cs := match s.toList with
    | '\uFEFF' :: rest => rest
    | cs => cs
  (Reader.lines (cs.length + 1) ⟨[], []⟩ cs).map Reader.Document.entries

end Homeserver.Toml
