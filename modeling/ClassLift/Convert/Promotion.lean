import ClassLift.Convert.Workspace
import ClassLift.Naming.BaseType
import ClassLift.Naming.Binding
import ClassLift.Tree.Edit

/-!
Promotion of a constructor function to a class. The class stands where the function stood and has
its name; parameters and body move into a member named `constructor`, which shares the
documentation of the function.
-/

namespace ClassLift

namespace Forest

-- A function without a name has an empty node in its place.
def addNameUnlessGiven (f : Forest) (name : Ref) : Forest × Ref :=
  match f.identifierText? name with
  | some text => if text = "" then f.add .empty [] else (f, name)
  | none => f.add .empty []

def baseName? (f : Forest) (doc : Nat) : Option String := do
  let d ← f.docs[doc]?
  BaseType.normalize? (← d.baseType)

-- The base type of the documentation, or an empty node.
def addSuperclass (f : Forest) (doc : Nat) : Forest × Ref :=
  match (f.baseName? doc).map f.buildPath with
  | some (f, some chain) => (f, chain)
  | _ => f.add .empty []

-- A node in the place of a function is as long as the function was.
def markPromoted (f : Forest) (function r : Ref) : Forest :=
  (f.copySpan function r).addFlags r .synthesized

-- The parts are those that a function has been separated from.
def addPromoted (f : Forest) (function name parameters body : Ref) (doc : Nat) : Forest × Ref :=
  let (f, className) := f.addNameUnlessGiven name
  let (f, superclass) := f.addSuperclass doc
  let (f, noName) := f.add .empty []
  let (f, moved) := f.addFunction noName parameters body
  let f := f.copySpan function moved
  let (f, constructor) := f.addMember "constructor" false moved
  let f := f.markPromoted function constructor
  let f := f.setDoc constructor (some doc)
  let (f, members) := f.add .classMembers [constructor]
  let (f, cls) := f.addClass className superclass members
  (f.markPromoted function cls, cls)

end Forest

namespace Workspace

def countPromotion (w : Workspace) : Workspace :=
  { w with
    stats.codeChanges := w.stats.codeChanges + 1
    stats.classesPromoted := w.stats.classesPromoted + 1 }

-- Puts a class in the place of a function whose name is free.
def promoteAs (w : Workspace) (className : Option String) (function : Ref) (doc : Nat) :
    Outcome Ref :=
  match w.forest.detachChildren function with
  | .ok (bare, [name, parameters, body]) =>
    let (f, cls) := bare.addPromoted function name parameters body doc
    match f.replaceWith function cls with
    | .ok f => (.ok cls, ({ w with forest := f }.countPromotion).define className cls)
    | .error e => (.error (.tree e), { w with forest := f })
  | .ok _ => (.error (.malformedFunction function), w)
  | .error e => (.error (.tree e), w)

-- Gives the class, or nothing if its name is taken. Then the function stays as it is.
def promote (w : Workspace) (function : Ref) (doc : Nat) : Outcome (Option Ref) :=
  match w.forest.expectKind function .function with
  | .error e => (.error (.tree e), w)
  | .ok () =>
    let className := w.forest.nearestName? function
    match className.bind (w.registry.refusal? w.forest · function) with
    | some finding => (.ok none, w.note finding)
    | none =>
      let (result, w) := w.promoteAs className function doc
      (result.map some, w)

end Workspace

end ClassLift
