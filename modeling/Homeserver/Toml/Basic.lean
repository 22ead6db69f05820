/-
TOML documents: nested tables of values, and how headers and dotted keys extend them. Every table
may be defined once; which further keys it then takes depends on how it came about.
-/
namespace Homeserver

/-- How a table came about. -/
inductive Toml.Origin where
  /-- By a header of its own. -/
  | header
  /-- By a header of a table inside it. -/
  | implied
  /-- By dotted keys. -/
  | dotted
  /-- As a value between braces. -/
  | inline
  deriving DecidableEq, Repr

/-- A TOML value. Of numbers with a point and of dates only their kind is kept. -/
inductive Toml where
  | str (s : String)
  | int (n : Int)
  | bool (b : Bool)
  | float
  | datetime
  | arr (items : List Toml)
  | table (origin : Toml.Origin) (entries : List (String × Toml))
  /-- The tables of a header in double brackets, each one a `table`. -/
  | tables (items : List Toml)
  deriving Repr, Inhabited

namespace Toml

abbrev Entries := List (String × Toml)

/-! ## Entries -/

def find? (key : String) (entries : Entries) : Option Toml := entries.lookup key

/-- Sets an entry, at its place or at the end. -/
def set (key : String) (value : Toml) : Entries → Entries
  | [] => [(key, value)]
  | (k, v) :: rest => if k = key then (key, value) :: rest else (k, v) :: set key value rest

/-- A list with its last item changed. -/
def updateLast (f : Toml → Option Toml) : List Toml → Option (List Toml)
  | [] => none
  | [v] => (f v).map ([·])
  | v :: rest => (updateLast f rest).map (v :: ·)

/-- Changes the entries of a table. -/
def updateEntries (f : Entries → Option Entries) : Toml → Option Toml
  | .table origin entries => (f entries).map (.table origin)
  | _ => none

/-! ## Descending -/

/-- Changes the entries of the table that a header's path leads to. Missing tables are implied; of
tables in an array the last one is meant. -/
def underHeader (f : Entries → Option Entries) : List String → Entries → Option Entries
  | [], entries => f entries
  | key :: path, entries =>
    match find? key entries with
    | none => (underHeader f path []).map (fun t => set key (.table .implied t) entries)
    | some (.table .inline _) => none
    | some (.table origin t) =>
      (underHeader f path t).map (fun t => set key (.table origin t) entries)
    | some (.tables items) =>
      (updateLast (updateEntries (underHeader f path)) items).map
        (fun items => set key (.tables items) entries)
    | some _ => none

/-- Sets the value of a new key. -/
def setNew (key : String) (value : Toml) (entries : Entries) : Option Entries :=
  match find? key entries with
  | none => some (set key value entries)
  | some _ => none

/-- Sets the value of a dotted key. The tables on its way must have come about by dotted keys or,
but for the last one, be implied by headers. -/
def setDotted (value : Toml) : List String → Entries → Option Entries
  | [], _ => none
  | [key], entries => setNew key value entries
  | key :: path, entries =>
    match find? key entries with
    | none => (setDotted value path []).map (fun t => set key (.table .dotted t) entries)
    | some (.table .dotted t) =>
      (setDotted value path t).map (fun t => set key (.table .dotted t) entries)
    | some (.table .implied t) =>
      if path.length = 1 then none
      else (setDotted value path t).map (fun t => set key (.table .implied t) entries)
    | some (.tables items) =>
      if path.length = 1 then none
      else (updateLast (updateEntries (setDotted value path)) items).map
        (fun items => set key (.tables items) entries)
    | some _ => none

/-! ## Headers -/

/-- Defines the table of a header. -/
def openTable (key : String) (entries : Entries) : Option Entries :=
  match find? key entries with
  | none => some (set key (.table .header []) entries)
  | some (.table .implied t) => some (set key (.table .header t) entries)
  | some _ => none

/-- Adds a table to the array of a header in double brackets. -/
def openArrayTable (key : String) (entries : Entries) : Option Entries :=
  match find? key entries with
  | none => some (set key (.tables [.table .header []]) entries)
  | some (.tables items) => some (set key (.tables (items ++ [.table .header []])) entries)
  | some _ => none

end Toml

end Homeserver
