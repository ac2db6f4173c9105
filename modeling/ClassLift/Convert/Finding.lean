import ClassLift.Text.Template
import ClassLift.Tree.Forest

/-!
What a conversion reports without stopping: the messages, their place in a source, and the finding
that they are about.
-/

namespace ClassLift

inductive Category
  | error
  deriving DecidableEq, Repr

def Category.name : Category → String
  | error => "Error"

def Category.label : Category → String
  | error => "error"

structure Message where
  code : Nat
  category : Category
  key : String
  template : String
  deriving DecidableEq, Repr

namespace Message

def classRedefined : Message where
  code := 9001
  category := .error
  key := "CLASS_REDEFINED_ERROR"
  template := "The class \x7b0\x7d has been defined multiple times within the same file."

def unknownClass : Message where
  code := 9002
  category := .error
  key := "UNKNOWN_CLASS_ERROR"
  template := "The class \x7b0\x7d could not be found."

def all : List Message :=
  [classRedefined, unknownClass]

def ofCode? (code : Nat) : Option Message :=
  all.find? (·.code == code)

end Message

-- A message with its arguments, and where it applies.
structure Diagnostic where
  file : String
  start : Nat
  length : Nat
  text : String
  category : Category
  code : Nat
  deriving DecidableEq, Repr

def Message.diagnostic (m : Message) (file : String) (start length : Nat) (args : List String) :
    Diagnostic where
  file := file
  start := start
  length := length
  text := Text.fill m.template args
  category := m.category
  code := m.code

inductive Problem
  -- A name is defined more than once in a file.
  | classRedefined
  -- A member is assigned to the prototype of a class that the file does not define.
  | unknownClass
  deriving DecidableEq, Repr

namespace Problem

def name : Problem → String
  | classRedefined => "ClassRedefined"
  | unknownClass => "UnknownClass"

def message : Problem → Message
  | classRedefined => .classRedefined
  | unknownClass => .unknownClass

end Problem

structure Finding where
  problem : Problem
  className : String
  node : Ref
  diagnostic : Diagnostic
  deriving DecidableEq, Repr

-- The place of a finding is the span of its node in the file of the script around it.
def Finding.at (f : Forest) (problem : Problem) (node : Ref) (className : String) : Finding :=
  let file := (f.fileName? (f.enclosingScript node)).getD ""
  let (start, length) := (f.node? node).elim (0, 0) fun n => (n.pos.toNat, n.width)
  { problem, className, node
    diagnostic := problem.message.diagnostic file start length [className] }

end ClassLift
