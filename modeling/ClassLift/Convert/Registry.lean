import ClassLift.Convert.Finding

/-!
The classes of one file by name. The first definition of a name wins.
-/

namespace ClassLift

structure Registry where
  entries : List (String × Ref) := []
  deriving DecidableEq, Repr

namespace Registry

def lookup? (r : Registry) (name : String) : Option Ref :=
  (r.entries.find? (·.1 == name)).map (·.2)

def contains (r : Registry) (name : String) : Bool :=
  (r.lookup? name).isSome

def size (r : Registry) : Nat :=
  r.entries.length

def isEmpty (r : Registry) : Bool :=
  r.entries.isEmpty

-- The names with their nodes, in the order of their definition.
def iter (r : Registry) : List (String × Ref) :=
  r.entries

def reset (r : Registry) : Registry :=
  { r with entries := [] }

-- Why a node cannot define a name, if it cannot.
def refusal? (r : Registry) (f : Forest) (name : String) (node : Ref) : Option Finding :=
  if r.contains name then some (.at f .classRedefined node name) else none

def register (r : Registry) (f : Forest) (name : String) (node : Ref) : Except Finding Registry :=
  match r.refusal? f name node with
  | some finding => .error finding
  | none => .ok { entries := r.entries ++ [(name, node)] }

end Registry

end ClassLift
