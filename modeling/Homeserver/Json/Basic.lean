/-
JSON values. An object is the table of its members; `Ordered` says that a value has its members in
increasing order of keys at every level, as all values have that are read from text.
-/
import Homeserver.Number.Double
import Homeserver.Table

namespace Homeserver

/-- A JSON value. Integers and floating point numbers are kept apart, as `1` and `1.0` are two
values; integers lie between `-2 ^ 63` and `2 ^ 64 - 1` in all values that are read from text. -/
inductive Json where
  | null
  | bool (b : Bool)
  | int (n : Int)
  | double (x : Double)
  | str (s : String)
  | arr (items : List Json)
  | obj (members : List (String × Json))
  deriving Repr, Inhabited

/-- The members of an object. -/
abbrev Members := Table String Json

namespace Json

/-! ## Making values -/

/-- The object with these members, in any order. -/
def object (members : List (String × Json)) : Json := .obj (Table.ofList members)

def ofStrings (items : List String) : Json := .arr (items.map .str)

/-- A string, or null when there is none. -/
def ofString? : Option String → Json
  | some s => .str s
  | none => .null

/-! ## Looking into values -/

def string? : Json → Option String
  | .str s => some s
  | _ => none

def bool? : Json → Option Bool
  | .bool b => some b
  | _ => none

def array? : Json → Option (List Json)
  | .arr items => some items
  | _ => none

def members? : Json → Option Members
  | .obj members => some members
  | _ => none

/-- The integers of 64 bits with sign; no floating point number counts as an integer. -/
def int? : Json → Option Int
  | .int n => if Int64.minValue.toInt ≤ n ∧ n ≤ Int64.maxValue.toInt then some n else none
  | _ => none

/-- The integers of 64 bits without sign. -/
def nat? : Json → Option Nat
  | .int n => if 0 ≤ n ∧ n < UInt64.size then some n.toNat else none
  | _ => none

def isObject : Json → Bool
  | .obj _ => true
  | _ => false

def isString : Json → Bool
  | .str _ => true
  | _ => false

def isNull : Json → Bool
  | .null => true
  | _ => false

/-- The value of a member of an object; nothing for a value that is no object. -/
def get? (v : Json) (key : String) : Option Json :=
  match v with
  | .obj members => Table.find? key members
  | _ => none

/-- The members of an object, and none for a value that is no object. -/
def membersD : Json → Members
  | .obj members => members
  | _ => []

/-- The value reached by taking these members one after the other. -/
def path? (v : Json) : List String → Option Json
  | [] => some v
  | key :: rest => (v.get? key).bind (·.path? rest)

/-! ## Equality -/

mutual

/-- Equality of values, in which the two floating point zeros are one number. -/
def same : Json → Json → Bool
  | .null, .null => true
  | .bool a, .bool b => a == b
  | .int a, .int b => a == b
  | .double a, .double b => a.same b
  | .str a, .str b => a == b
  | .arr a, .arr b => sameItems a b
  | .obj a, .obj b => sameMembers a b
  | _, _ => false

def sameItems : List Json → List Json → Bool
  | [], [] => true
  | a :: as, b :: bs => same a b && sameItems as bs
  | _, _ => false

def sameMembers : List (String × Json) → List (String × Json) → Bool
  | [], [] => true
  | (k, a) :: as, (l, b) :: bs => k == l && same a b && sameMembers as bs
  | _, _ => false

end

/-! ## Order of members -/

mutual

/-- Every object in the value has its members in strictly increasing order of keys. -/
def Ordered : Json → Prop
  | .arr items => OrderedItems items
  | .obj members => Table.Sorted members ∧ OrderedMembers members
  | _ => True

def OrderedItems : List Json → Prop
  | [] => True
  | v :: rest => Ordered v ∧ OrderedItems rest

def OrderedMembers : List (String × Json) → Prop
  | [] => True
  | (_, v) :: rest => Ordered v ∧ OrderedMembers rest

end

end Json

end Homeserver
