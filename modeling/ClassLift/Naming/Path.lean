import ClassLift.Tree.Build

/-!
Paths such as `a.b.c`: their text, and the chains of property accesses that stand for them. The
first segment is the innermost identifier, and each further segment is an access to what is before
it.
-/

namespace ClassLift

namespace Path

def toText (segments : List String) : String :=
  String.intercalate "." segments

-- No segment is empty.
def ofText? (text : String) : Option (List String) :=
  let segments := text.toList.splitOn '.'
  if segments.any (·.isEmpty) then none else some (segments.map String.ofList)

end Path

namespace Forest

/- Writing -/

def addPath (f : Forest) : List String → Forest × Option Ref
  | [] => (f, none)
  | head :: rest =>
    let (f, chain) := rest.foldl (fun (f, object) name => f.addPropertyAccess object name)
      (f.addIdentifier head)
    (f, some chain)

-- Adds nothing if the text is not that of a path.
def buildPath (f : Forest) (text : String) : Forest × Option Ref :=
  match Path.ofText? text with
  | some segments => f.addPath segments
  | none => (f, none)

/- Reading -/

def pathWithin (f : Forest) : Nat → Ref → Option (List String)
  | 0, _ => none
  | depth + 1, r =>
    match f.kind? r with
    | some .identifier => (f.text? r).map ([·])
    | some .thisKeyword => some ["this"]
    | some .propertyAccess => do
      let name ← f.identifierText? (f.last r)
      let object ← f.pathWithin depth (f.first r)
      return object ++ [name]
    | _ => none

-- The segments of an expression that is a path.
def path? (f : Forest) (r : Ref) : Option (List String) :=
  f.pathWithin (f.size + 1) r

def qualifiedName? (f : Forest) (r : Ref) : Option String :=
  (f.path? r).map Path.toText

-- The last segment of a property access.
def propertyName? (f : Forest) (r : Ref) : Option String :=
  if f.isKind r .propertyAccess then f.identifierText? (f.last r) else none

end Forest

end ClassLift
