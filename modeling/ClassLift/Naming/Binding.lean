import ClassLift.Naming.Path

/-!
Names and documentation of functions and classes, which mostly come from where they are bound:
`var A = …`, `a.b.A = …` or a property of an object.
-/

namespace ClassLift.Forest

-- Whether a node is on the right of what binds it.
def isValueOf (f : Forest) (r parent : Ref) : Bool :=
  f.second parent == r

def boundName? (f : Forest) (r : Ref) : Option String :=
  let parent := f.parent r
  match f.kind? parent with
  | some .variableDeclaration =>
    if f.isValueOf r parent then f.identifierText? (f.first parent) else none
  | some .assignment => if f.isValueOf r parent then f.qualifiedName? (f.first parent) else none
  | some .propertyAssignment => f.text? parent
  | _ => none

-- The identifier of the function or class itself.
def ownName? (f : Forest) (r : Ref) : Option String :=
  f.identifierText? (f.first r)

-- The binding wins over the own name. An empty name is none.
def nearestName? (f : Forest) (r : Ref) : Option String :=
  ((f.boundName? r).filter (· ≠ "")).or ((f.ownName? r).filter (· ≠ ""))

-- Documentation of the statement around a binding, if it is the right kind of statement.
def statementDoc? (f : Forest) (binding : Ref) (kind : Kind) : Option Nat :=
  let statement := f.parent binding
  if f.isKind statement kind then f.docIndex? statement else none

-- A statement that declares more than one variable documents none of them.
def boundDoc? (f : Forest) (r : Ref) : Option Nat :=
  let parent := f.parent r
  match f.kind? parent with
  | some .variableDeclaration =>
    if f.isValueOf r parent then
      (f.docIndex? parent).or <|
        if (f.children (f.parent parent)).length = 1 then
          f.statementDoc? parent .variableStatement
        else
          none
    else
      none
  | some .assignment =>
    if f.isValueOf r parent then
      (f.docIndex? parent).or (f.statementDoc? parent .expressionStatement)
    else
      none
  | some .propertyAssignment => f.docIndex? parent
  | _ => none

-- The own documentation wins over that of the binding.
def bestDoc? (f : Forest) (r : Ref) : Option Nat :=
  (f.docIndex? r).or (f.boundDoc? r)

end ClassLift.Forest
