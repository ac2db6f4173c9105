import ClassLift.Convert.Options
import ClassLift.Convert.Workspace
import ClassLift.Naming.Path
import ClassLift.Tree.Edit

/-!
Members that are assigned: `A.prototype.f = function …` is a member of the instances of `A`, and
`A.f = function …` a static member. The function moves from the statement into the class.
-/

namespace ClassLift

-- A statement `target = value;`, where the target is a property access.
structure MemberAssignment where
  statement : Ref
  assignment : Ref
  target : Ref
  value : Ref
  doc : Option Nat
  deriving DecidableEq, Repr

namespace MemberAssignment

-- The documentation of the statement wins over that of its parts.
def ofStatement? (f : Forest) (statement : Ref) : Option MemberAssignment :=
  let assignment := f.first statement
  let target := f.first assignment
  let value := f.second assignment
  if f.isKind statement .expressionStatement && f.isKind assignment .assignment &&
      f.isKind target .propertyAccess then
    some {
      statement, assignment, target, value
      doc := ((f.docIndex? statement).or (f.docIndex? assignment)).or (f.docIndex? value) }
  else
    none

def isMethod (m : MemberAssignment) (f : Forest) : Bool :=
  f.isKind m.value .function

-- Whether a property access ends in `prototype`.
def isPrototype (f : Forest) (r : Ref) : Bool :=
  f.propertyName? r == some "prototype"

def isStatic (m : MemberAssignment) (f : Forest) : Bool :=
  !isPrototype f (f.first m.target)

-- The outermost access in a chain of accesses that ends in `prototype`.
def prototypeWithin (f : Forest) : Nat → Ref → Option Ref
  | 0, _ => none
  | depth + 1, r =>
    if f.isKind r .propertyAccess then
      if isPrototype f r then some r else prototypeWithin f depth (f.first r)
    else
      none

-- The name of the class, or nothing if the target does not name one.
def className? (m : MemberAssignment) (f : Forest) : Except ConversionError (Option String) :=
  if m.isStatic f then
    .ok (f.qualifiedName? (f.first m.target))
  else
    match prototypeWithin f (f.size + 1) m.target with
    | some access => .ok (f.qualifiedName? (f.first access))
    | none => .error (.missingPrototype m.target)

def memberName? (m : MemberAssignment) (f : Forest) : Option String :=
  f.propertyName? m.target

end MemberAssignment

namespace Workspace

def countMerge (w : Workspace) : Workspace :=
  { w with
    stats.codeChanges := w.stats.codeChanges + 1
    stats.membersMerged := w.stats.membersMerged + 1 }

-- Takes the statement apart and appends its function to the members of a class.
def moveInto (w : Workspace) (members : Ref) (m : MemberAssignment) (name : String)
    (isStatic : Bool) : Outcome Ref :=
  match w.forest.detach m.statement with
  | .error e => (.error (.tree e), w)
  | .ok f =>
    match f.detach m.value with
    | .error e => (.error (.tree e), { w with forest := f })
    | .ok f =>
      let (f, member) := f.addMember name isStatic m.value
      let f := f.copySpan m.statement member
      let f := f.setDoc member m.doc
      match f.appendChild members member with
      | .error e => (.error (.tree e), { w with forest := f })
      | .ok f => (.ok member, { w with forest := f }.countMerge)

-- Gives the member, or nothing if the statement stays where it is. A class that is not found is
-- only reported for members of its instances.
def merge (w : Workspace) (options : Options) (m : MemberAssignment) : Outcome (Option Ref) :=
  let isStatic := m.isStatic w.forest
  if isStatic && !options.mergeStaticMethods then
    (.ok none, w)
  else
    match m.className? w.forest with
    | .error e => (.error e, w)
    | .ok none => (.ok none, w)
    | .ok (some className) =>
      match w.registry.lookup? className with
      | none =>
        if !isStatic && options.reportUnknownClasses then
          (.ok none, w.report .unknownClass m.target className)
        else
          (.ok none, w)
      | some cls =>
        match m.memberName? w.forest with
        | none => (.ok none, w)
        | some name =>
          if w.forest.isWithin cls m.value then
            (.ok none, w)
          else
            let members := w.forest.members cls
            match w.forest.expectKind members .classMembers with
            | .error e => (.error (.tree e), w)
            | .ok () =>
              let (result, w) := w.moveInto members m name isStatic
              (result.map some, w)

end Workspace

end ClassLift
