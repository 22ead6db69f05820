/-
Tables: lists of keys with values. `insert` keeps a table in increasing order of keys with each key
once, so that two tables grown from the empty one by `insert` and `erase` are equal when they hold
the same values under the same keys.
-/
namespace Homeserver

/-! ## Order of keys -/

/-- Keys with a strict order. -/
class Key (κ : Type) where
  before : κ → κ → Bool

/-- The order of texts by their characters' code points, in which a text comes before its
continuations. -/
def codepointBefore : List Char → List Char → Bool
  | [], [] => false
  | [], _ :: _ => true
  | _ :: _, [] => false
  | a :: as, b :: bs => a.toNat < b.toNat || (a == b && codepointBefore as bs)

instance : Key String := ⟨fun a b => codepointBefore a.toList b.toList⟩

/-! ## Tables -/

/-- A list of keys with values. -/
abbrev Table (κ α : Type) := List (κ × α)

namespace Table

variable {κ α : Type} [DecidableEq κ]

/-- The value under a key. -/
def find? (key : κ) : Table κ α → Option α
  | [] => none
  | (k, v) :: rest => if k = key then some v else find? key rest

/-- Puts a value under a key, in the place where the order of keys has it. -/
def insert [Key κ] (key : κ) (value : α) : Table κ α → Table κ α
  | [] => [(key, value)]
  | (k, v) :: rest =>
    if Key.before key k then (key, value) :: (k, v) :: rest
    else if key = k then (key, value) :: rest
    else (k, v) :: insert key value rest

/-- Removes a key. -/
def erase (key : κ) (t : Table κ α) : Table κ α := t.filter (fun row => row.1 ≠ key)

/-- The table of these rows, of which the last one with a key counts. -/
def ofList [Key κ] (rows : List (κ × α)) : Table κ α :=
  rows.foldl (fun t row => insert row.1 row.2 t) []

def contains (key : κ) (t : Table κ α) : Bool := (find? key t).isSome

def keys (t : Table κ α) : List κ := t.map Prod.fst

def values (t : Table κ α) : List α := t.map Prod.snd

/-- The keys are in strictly increasing order. -/
def Sorted [Key κ] (t : Table κ α) : Prop := (keys t).Pairwise (fun a b => Key.before a b = true)

end Table

/-! ## Sets -/

/-- A set of keys, in increasing order. -/
abbrev KeySet (κ : Type) := Table κ Unit

namespace KeySet

variable {κ : Type} [DecidableEq κ]

def add [Key κ] (key : κ) (s : KeySet κ) : KeySet κ := Table.insert key () s

def remove (key : κ) (s : KeySet κ) : KeySet κ := Table.erase key s

def has (key : κ) (s : KeySet κ) : Bool := Table.contains key s

def toList (s : KeySet κ) : List κ := Table.keys s

def ofList [Key κ] (items : List κ) : KeySet κ := items.foldl (fun s i => add i s) []

def removeAll (items : List κ) (s : KeySet κ) : KeySet κ := items.foldl (fun s i => remove i s) s

end KeySet

end Homeserver
