import ClassLift.Tree.Build
import ClassLift.Tree.Error

/-!
Edits of a forest. A node hangs below one parent at most, so it has to be taken out of its tree
before it can be put in elsewhere. An edit that fails changes nothing.
-/

namespace ClassLift.Forest

def require (f : Forest) (r : Ref) : Except TreeError Unit :=
  if (f.node? r).isSome then .ok () else .error (.invalidIndex r)

def expectKind (f : Forest) (r : Ref) (expected : Kind) : Except TreeError Unit :=
  match f.kind? r with
  | none => .error (.invalidIndex r)
  | some found => if found = expected then .ok () else .error (.unexpectedKind r expected found)

def requireAttachable (f : Forest) (parent child : Ref) : Except TreeError Unit := do
  f.require parent
  f.require child
  if f.parent child ≠ none then
    throw (.alreadyAttached child (f.parent child))
  if f.isWithin parent child then
    throw (.cycle child)

def detach (f : Forest) (r : Ref) : Except TreeError Forest := do
  f.require r
  let parent := f.parent r
  if parent = none then
    throw (.noParent r)
  f.require parent
  if r ∉ f.children parent then
    throw (.notAChild r parent)
  return (f.setChildren parent ((f.children parent).erase r)).setParent r none

-- The new child comes last.
def appendChild (f : Forest) (parent child : Ref) : Except TreeError Forest := do
  f.requireAttachable parent child
  return (f.setChildren parent (f.children parent ++ [child])).setParent child parent

-- The new child takes the place of the old one.
def replaceChild (f : Forest) (parent old new : Ref) : Except TreeError Forest := do
  f.require old
  f.requireAttachable parent new
  if old ∉ f.children parent then
    throw (.notAChild old parent)
  return ((f.setChildren parent ((f.children parent).replace old new)).setParent old none).setParent
    new parent

def replaceWith (f : Forest) (old new : Ref) : Except TreeError Forest :=
  let parent := f.parent old
  if parent = none then .error (.noParent old) else f.replaceChild parent old new

def detachChildren (f : Forest) (r : Ref) : Except TreeError (Forest × List Ref) := do
  f.require r
  let children := f.children r
  return ((f.setChildren r []).setParents children none, children)

end ClassLift.Forest
