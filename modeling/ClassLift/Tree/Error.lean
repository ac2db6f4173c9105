import ClassLift.Tree.Forest

/-!
What can be wrong with a tree, or with an edit of one.
-/

namespace ClassLift

inductive TreeError
  | invalidIndex (node : Ref)
  | alreadyAttached (child parent : Ref)
  | noParent (node : Ref)
  | notAChild (child parent : Ref)
  | cycle (node : Ref)
  | duplicateChild (child parent : Ref)
  | unexpectedKind (node : Ref) (expected found : Kind)
  | danglingData (node : Ref) (kind : Kind) (data : Nat)
  -- The text is not a document.
  | malformed
  deriving DecidableEq, Repr

namespace TreeError

def message : TreeError → String
  | invalidIndex node => "node index " ++ node.toText ++ " is out of range"
  | alreadyAttached child parent =>
    "node " ++ child.toText ++ " is already attached to " ++ parent.toText ++ "; detach it first"
  | noParent node => "node " ++ node.toText ++ " has no parent"
  | notAChild child parent => "node " ++ child.toText ++ " is not a child of " ++ parent.toText
  | cycle node => "node " ++ node.toText ++ " is its own ancestor"
  | duplicateChild child parent =>
    "node " ++ child.toText ++ " is listed more than once under " ++ parent.toText
  | unexpectedKind node expected found =>
    "expected " ++ expected.name ++ " at " ++ node.toText ++ ", found " ++ found.name
  | danglingData node kind data =>
    "node " ++ node.toText ++ " of kind " ++ kind.name ++ " has a dangling data index " ++
      toString data
  | malformed => "malformed AST document"

end TreeError

end ClassLift
