/-
The arguments of the command line: options with a value, flags, and which lists of arguments are
refused. An option's value stands in the same argument or is the next one; an option that lacks its
value or is given twice is only refused when it is settled, that is with the next option or at the
end, so that an unknown argument before that is reported instead.
-/
namespace Homeserver

/-- What a run is asked for. -/
structure Arguments where
  /-- The path of the settings. -/
  config : String := "config/meshcheck.toml"
  /-- The path of the key to sign with. -/
  signingKey : Option String := none
  /-- The version of a room to open. -/
  roomVersion : Option String := none
  /-- Answers unexpected requests with success. -/
  lenient : Bool := false
  deriving DecidableEq, Repr

/-- Why no run starts. -/
inductive ArgumentError where
  /-- Help is asked for. -/
  | help
  | unknown (argument : String)
  /-- An option lacks its value, or a path is empty. -/
  | noValue (option : String)
  | repeated (option : String)
  /-- A flag is given a value. -/
  | unwantedValue (flag : String)
  deriving DecidableEq, Repr

namespace Arguments

/-! ## Options -/

/-- The options with a value. -/
inductive Valued where
  | config
  | signingKey
  | roomVersion
  deriving DecidableEq, Repr

/-- What an argument names. -/
inductive Named where
  | option (o : Valued)
  | lenient
  | help
  deriving DecidableEq, Repr

namespace Named

def ofLong? (name : String) : Option Named :=
  match name with
  | "config" => some (option .config)
  | "signing-key" => some (option .signingKey)
  | "room-version" => some (option .roomVersion)
  | "lenient" => some lenient
  | "help" => some help
  | _ => none

def ofShort? : Char → Option Named
  | 'c' => some (option .config)
  | 'h' => some help
  | _ => none

end Named

namespace Valued

def name : Valued → String
  | config => "--config"
  | signingKey => "--signing-key"
  | roomVersion => "--room-version"

/-- Whether the value is a path, which may not be empty. -/
def isPath : Valued → Bool
  | config | signingKey => true
  | roomVersion => false

def set (o : Valued) (value : String) (a : Arguments) : Arguments :=
  match o with
  | config => { a with config := value }
  | signingKey => { a with signingKey := some value }
  | roomVersion => { a with roomVersion := some value }

end Valued

/-! ## Reading -/

/-- What is known before an argument is read. -/
structure Reading where
  arguments : Arguments := {}
  /-- The options that are settled. -/
  settled : List Valued := []
  /-- An option that is not settled, with its value if it has one. -/
  open? : Option (Valued × Option String) := none

namespace Reading

/-- Settles an option. -/
def give (r : Reading) (o : Valued) (value : String) : Except ArgumentError Reading :=
  if o ∈ r.settled then .error (.repeated o.name)
  else if o.isPath && value.isEmpty then .error (.noValue o.name)
  else .ok { r with arguments := o.set value r.arguments, settled := o :: r.settled }

/-- Settles what is not settled. -/
def settle (r : Reading) : Except ArgumentError Reading :=
  match r.open? with
  | none => .ok r
  | some (o, none) => .error (.noValue o.name)
  | some (o, some value) => { r with open? := none }.give o value

/-- Takes what an argument names, with the value that the argument holds. -/
def take (r : Reading) (n : Named) (value : Option String) : Except ArgumentError Reading :=
  match n, value with
  | .lenient, some _ => .error (.unwantedValue "--lenient")
  | .help, some _ => .error (.unwantedValue "--help")
  | .option o, some value => do (← r.settle).give o value
  | .option o, none => do return { ← r.settle with open? := some (o, none) }
  | .help, none => do
    let _ ← r.settle
    throw .help
  | .lenient, none => do
    let r ← r.settle
    if r.arguments.lenient then throw (.repeated "--lenient")
    return { r with arguments := { r.arguments with lenient := true } }

/-- Takes an argument of two dashes and a name, with a value behind an equals sign. -/
def takeLong (r : Reading) (text : List Char) : Except ArgumentError Reading :=
  let value := match text.dropWhile (· ≠ '=') with
    | [] => none
    | _ :: value => some (String.ofList value)
  match Named.ofLong? (String.ofList (text.takeWhile (· ≠ '='))) with
  | some n => r.take n value
  | none => .error (.unknown (String.ofList ('-' :: '-' :: text)))

/-- Takes an argument of one dash and letters, the rest of which is an option's value. -/
def takeShort (r : Reading) : List Char → Except ArgumentError Reading
  | [] => .ok r
  | letter :: rest =>
    match Named.ofShort? letter, rest with
    | none, _ => .error (.unknown (String.ofList ['-', letter]))
    | some (.option o), '=' :: value => r.take (.option o) (some (String.ofList value))
    | some (.option o), [] => r.take (.option o) none
    | some (.option o), value => r.take (.option o) (some (String.ofList value))
    | some n, rest => do takeShort (← r.take n none) rest

/-- Takes an argument that is no option: the value of the option before it. -/
def takeValue (r : Reading) (text : String) : Except ArgumentError Reading :=
  match r.open? with
  | some (o, none) => .ok { r with open? := some (o, some text) }
  | _ => .error (.unknown text)

/-- Takes arguments one after the other; nothing may follow two dashes alone. -/
def takeAll (r : Reading) : List String → Except ArgumentError Reading
  | [] => r.settle
  | text :: rest =>
    match text.toList, rest with
    | ['-', '-'], [] => r.settle
    | ['-', '-'], extra :: _ => .error (.unknown extra)
    | '-' :: '-' :: long, _ => do takeAll (← r.takeLong long) rest
    | '-' :: c :: short, _ => do takeAll (← r.takeShort (c :: short)) rest
    | _, _ => do takeAll (← r.takeValue text) rest

end Reading

/-- Reads the arguments of a command line without the name of the program. -/
def read (items : List String) : Except ArgumentError Arguments := do
  return (← Reading.takeAll {} items).arguments

end Arguments

end Homeserver
