/-!
The arguments of the command line: one input, and options before, between or after it.
-/

namespace ClassLift

structure Arguments where
  input : String
  output : Option String := none
  config : Option String := none
  pretty : Bool := false
  noStaticMerge : Bool := false
  dumpTree : Bool := false
  deriving DecidableEq, Repr

inductive ArgumentError
  | missingInput
  | unknown
  -- A value is missing or empty.
  | invalidValue
  | repeated
  | tooManyValues
  | helpWanted
  | versionWanted
  deriving DecidableEq, Repr

namespace Arguments

-- What takes a value.
inductive Slot
  | input
  | output
  | config
  deriving DecidableEq, Repr

-- What takes none.
inductive Switch
  | pretty
  | noStaticMerge
  | dumpTree
  | help
  | version
  deriving DecidableEq, Repr

inductive Name
  | slot (s : Slot)
  | switch (s : Switch)
  deriving DecidableEq, Repr

def longNames : List (String × Name) := [
    ("output", .slot .output), ("config", .slot .config), ("pretty", .switch .pretty),
    ("no-static-merge", .switch .noStaticMerge), ("dump-tree", .switch .dumpTree),
    ("help", .switch .help), ("version", .switch .version)]

def short? : Char → Option Name
  | 'o' => some (.slot .output)
  | 'h' => some (.switch .help)
  | 'V' => some (.switch .version)
  | _ => none

structure Draft where
  slots : List (Slot × String) := []
  switches : List Switch := []
  -- The slot that was named last, until its value is settled.
  pending : Option (Slot × Option String) := none
  -- After `--` everything is an input.
  inputsOnly : Bool := false

namespace Draft

def value? (d : Draft) (slot : Slot) : Option String :=
  (d.slots.find? (·.1 == slot)).map (·.2)

def fill (d : Draft) (slot : Slot) (value : String) : Except ArgumentError Draft :=
  if (d.value? slot).isSome then .error .repeated
  else if value.isEmpty then .error .invalidValue
  else .ok { d with slots := (slot, value) :: d.slots }

-- Settles the slot that is pending.
def settle (d : Draft) : Except ArgumentError Draft :=
  match d.pending with
  | none => .ok d
  | some (_, none) => .error .invalidValue
  | some (slot, some value) => { d with pending := none }.fill slot value

def hold (d : Draft) (slot : Slot) (value : Option String) : Except ArgumentError Draft := do
  let d ← d.settle
  return { d with pending := some (slot, value) }

def set (d : Draft) (slot : Slot) (value : String) : Except ArgumentError Draft := do
  let d ← d.settle
  d.fill slot value

def turnOn (d : Draft) (switch : Switch) : Except ArgumentError Draft := do
  let d ← d.settle
  match switch with
  | .help => throw .helpWanted
  | .version => throw .versionWanted
  | switch =>
    if switch ∈ d.switches then
      throw .repeated
    return { d with switches := switch :: d.switches }

-- An argument that starts with two dashes, without them.
def readLong (d : Draft) (s : List Char) : Except ArgumentError Draft :=
  let name := String.ofList (s.takeWhile (· ≠ '='))
  let value := (s.dropWhile (· ≠ '=')).tail?.map String.ofList
  match longNames.lookup name, value with
  | none, _ => .error .unknown
  | some (.slot slot), some value => d.set slot value
  | some (.slot slot), none => d.hold slot none
  | some (.switch _), some _ => .error .tooManyValues
  | some (.switch switch), none => d.turnOn switch

-- An argument that starts with one dash, without it. What follows the letter of a slot is its value.
def readShort (d : Draft) : List Char → Except ArgumentError Draft
  | [] => .ok d
  | c :: s =>
    match short? c, s with
    | none, _ => .error .unknown
    | some (.slot slot), [] => d.hold slot none
    | some (.slot slot), '=' :: value => d.set slot (String.ofList value)
    | some (.slot slot), value => d.set slot (String.ofList value)
    | some (.switch switch), s => do
      let d ← d.turnOn switch
      d.readShort s

def readInput (d : Draft) (value : String) : Except ArgumentError Draft :=
  if (d.value? .input).isSome || d.pending.any (·.1 == .input) then
    .error .unknown
  else
    d.hold .input (some value)

-- An argument that names nothing: the value of the slot before it, if that has none, or the input.
def readPlain (d : Draft) (value : String) : Except ArgumentError Draft :=
  match d.pending with
  | some (slot, none) => .ok { d with pending := some (slot, some value) }
  | _ => d.readInput value

def read (d : Draft) (argument : String) : Except ArgumentError Draft :=
  if d.inputsOnly then
    d.readInput argument
  else
    match argument.toList with
    | ['-', '-'] => .ok { d with inputsOnly := true }
    | '-' :: '-' :: s => d.readLong s
    | '-' :: c :: s => d.readShort (c :: s)
    | _ => d.readPlain argument

def finish (d : Draft) : Except ArgumentError Arguments := do
  let d ← d.settle
  match d.value? .input with
  | none => throw .missingInput
  | some input => return {
      input
      output := d.value? .output
      config := d.value? .config
      pretty := decide (.pretty ∈ d.switches)
      noStaticMerge := decide (.noStaticMerge ∈ d.switches)
      dumpTree := decide (.dumpTree ∈ d.switches) }

end Draft

def read (arguments : List String) : Except ArgumentError Arguments := do
  let d ← arguments.foldlM Draft.read {}
  d.finish

end Arguments

end ClassLift
