/-
Strict values hold no number but integers of at most 53 bits. A value that is not strict is refused
with its first other number, in the order of its canonical text.
-/
import Homeserver.Json.Canonical

namespace Homeserver.Json

/-- The largest integer below which every integer is a floating point number. -/
def maxSafeInteger : Int := 9007199254740991

/-- A step from a value into a value inside it. -/
inductive Step where
  | item (index : Nat)
  | member (key : String)
  deriving DecidableEq, Repr

/-- A number that a strict value may not hold, and the steps that lead to it. -/
structure NotStrict where
  path : List Step
  number : Json

namespace NotStrict

def stepText : Step → String
  | .item i => "[" ++ toString i ++ "]"
  | .member key => "." ++ key

def pathText (path : List Step) : String := "$" ++ String.join (path.map stepText)

/-- The refusal in words. -/
def message (e : NotStrict) : String :=
  match e.number.int? with
  | some n => pathText e.path ++ ": integer " ++ toString n ++ " out of range"
  | none => pathText e.path ++ ": non-integer number " ++ e.number.canonical

end NotStrict

/-- Whether a number may stand in a strict value. -/
def isSafeInteger (v : Json) : Bool :=
  match v.int? with
  | some n => -maxSafeInteger ≤ n && n ≤ maxSafeInteger
  | none => false

mutual

/-- The first number in a value that a strict value may not hold. -/
def firstUnsafe : Json → Option NotStrict
  | .int n => if isSafeInteger (.int n) then none else some ⟨[], .int n⟩
  | .double x => some ⟨[], .double x⟩
  | .arr items => firstUnsafeItem 0 items
  | .obj members => firstUnsafeMember members
  | _ => none

def firstUnsafeItem (index : Nat) : List Json → Option NotStrict
  | [] => none
  | v :: rest =>
    match firstUnsafe v with
    | some e => some ⟨.item index :: e.path, e.number⟩
    | none => firstUnsafeItem (index + 1) rest

def firstUnsafeMember : List (String × Json) → Option NotStrict
  | [] => none
  | (key, v) :: rest =>
    match firstUnsafe v with
    | some e => some ⟨.member key :: e.path, e.number⟩
    | none => firstUnsafeMember rest

end

/-- Accepts exactly the strict values. -/
def checkStrict (v : Json) : Except NotStrict Unit :=
  match v.firstUnsafe with
  | some e => .error e
  | none => .ok ()

end Homeserver.Json
