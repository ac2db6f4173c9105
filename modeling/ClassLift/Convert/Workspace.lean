import ClassLift.Convert.Registry
import ClassLift.Tree.Error

/-!
What a conversion works on: the forest, the classes it knows so far, its findings and its counts.
-/

namespace ClassLift

structure Stats where
  codeChanges : Nat := 0
  classesPromoted : Nat := 0
  membersMerged : Nat := 0
  classesRegistered : Nat := 0
  deriving DecidableEq, Repr

def Stats.add (s t : Stats) : Stats where
  codeChanges := s.codeChanges + t.codeChanges
  classesPromoted := s.classesPromoted + t.classesPromoted
  membersMerged := s.membersMerged + t.membersMerged
  classesRegistered := s.classesRegistered + t.classesRegistered

-- What ends a conversion early. The problems of a source are findings instead.
inductive ConversionError
  -- A member is assigned to a prototype, but no link of its target is one.
  | missingPrototype (target : Ref)
  | malformedFunction (node : Ref)
  | tree (e : TreeError)
  deriving DecidableEq, Repr

def ConversionError.message : ConversionError → String
  | missingPrototype target =>
    "invalid declaration name at " ++ target.toText ++
      ": no `prototype` segment in instance member target"
  | malformedFunction node =>
    "function " ++ node.toText ++ " does not have a name, parameter list and body"
  | tree e => e.message

structure Workspace where
  forest : Forest
  registry : Registry := {}
  findings : List Finding := []
  stats : Stats := {}

instance : Inhabited Workspace :=
  ⟨{ forest := {} }⟩

-- A step that fails keeps what it did to the workspace before.
abbrev Outcome (α : Type) := Except ConversionError α × Workspace

namespace Workspace

def note (w : Workspace) (finding : Finding) : Workspace :=
  { w with findings := w.findings ++ [finding] }

def report (w : Workspace) (problem : Problem) (node : Ref) (className : String) : Workspace :=
  w.note (.at w.forest problem node className)

def isAvailable (w : Workspace) (name : String) (node : Ref) : Bool × Workspace :=
  match w.registry.refusal? w.forest name node with
  | some finding => (false, w.note finding)
  | none => (true, w)

def register (w : Workspace) (name : String) (node : Ref) : Bool × Workspace :=
  match w.registry.register w.forest name node with
  | .error finding => (false, w.note finding)
  | .ok registry => (true, { w with registry })

-- A node without a name defines nothing.
def define (w : Workspace) (name : Option String) (node : Ref) : Workspace :=
  match name with
  | none => w
  | some name =>
    match w.register name node with
    | (true, w) => { w with stats.classesRegistered := w.stats.classesRegistered + 1 }
    | (false, w) => w

end Workspace

end ClassLift
