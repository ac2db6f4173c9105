import ClassLift.Tree.Forest

/-!
A tree on one line: every node in parentheses, with its kind, its text and its children.
-/

namespace ClassLift.Forest

def label (f : Forest) (r : Ref) : Option String :=
  if f.isKind r .script then f.fileName? r else f.text? r

def heading (f : Forest) (r : Ref) (n : Node) : String :=
  n.kind.name ++
    (if n.kind = .memberFunction ∧ n.isStatic then " static" else "") ++
    ((f.label r).elim "" (" " ++ ·))

def dumpWithin (f : Forest) : Nat → Ref → String
  | 0, _ => ""
  | depth + 1, r =>
    match f.node? r with
    | none => "(<invalid>)"
    | some n =>
      "(" ++ f.heading r n ++ String.join (n.children.map (" " ++ f.dumpWithin depth ·)) ++ ")"

-- Without a cycle no more nodes than the forest has are below each other, and below them one that
-- it does not have.
def dump (f : Forest) (r : Ref) : String :=
  f.dumpWithin (f.size + 1) r

end ClassLift.Forest
