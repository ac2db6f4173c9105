import ClassLift.Convert.Member
import ClassLift.Convert.Promotion

/-!
The conversion of a script. Its nodes are visited from the leaves up, and each visit may change the
tree; the children of a node are those that it has when it is entered, so that nothing a visit adds
is visited.
-/

namespace ClassLift

-- The documentation that makes a function a constructor.
def Forest.constructorDoc? (f : Forest) (function : Ref) : Option Nat :=
  (f.bestDoc? function).filter fun doc => f.docs[doc]?.any (·.isConstructor)

-- What a visit does to the tree.
inductive Change
  | promotion (function cls : Ref)
  | merge (m : MemberAssignment) (member : Ref)
  deriving DecidableEq, Repr

namespace Workspace

def visit (options : Options) (w : Workspace) (r : Ref) : Outcome (Option Change) :=
  match w.forest.kind? r with
  | some .classDefinition => (.ok none, w.define (w.forest.nearestName? r) r)
  | some .function =>
    match w.forest.constructorDoc? r with
    | none => (.ok none, w)
    | some doc =>
      let (result, w) := w.promote r doc
      (result.map (·.map (.promotion r)), w)
  | some .expressionStatement =>
    if w.forest.isKind (w.forest.parent r) .script then
      match MemberAssignment.ofStatement? w.forest r with
      | none => (.ok none, w)
      | some m =>
        if m.isMethod w.forest then
          let (result, w) := w.merge options m
          (result.map (·.map (.merge m)), w)
        else
          (.ok none, w)
    else
      (.ok none, w)
  | _ => (.ok none, w)

-- A node that a visit has taken away has no parent. The script itself never has one.
def isDetached (w : Workspace) (script r : Ref) : Bool :=
  r != script && w.forest.parent r == none

-- What is left to do at a node: its children and itself, or only itself.
inductive Task
  | enter (r : Ref)
  | leave (r : Ref)
  deriving DecidableEq, Repr

-- Takes a task from the stack, or ends with an outcome.
def turn (options : Options) (script : Ref) :
    List Task × Workspace → (List Task × Workspace) ⊕ Outcome Unit
  | ([], w) => .inr (.ok (), w)
  | (.enter r :: tasks, w) =>
    if w.isDetached script r then
      .inl (tasks, w)
    else
      .inl ((w.forest.children r).map .enter ++ .leave r :: tasks, w)
  | (.leave r :: tasks, w) =>
    if w.isDetached script r then
      .inl (tasks, w)
    else
      match w.visit options r with
      | (.ok _, w) => .inl (tasks, w)
      | (.error e, w) => .inr (.error e, w)

-- One turn after the other. In a forest with a cycle there may be no end.
def work (options : Options) (script : Ref) (tasks : List Task) (w : Workspace) : Outcome Unit :=
  Id.run <| repeatM (fun state => pure (turn options script state)) (tasks, w)

def walk (options : Options) (w : Workspace) (script : Ref) : Outcome Unit :=
  work options script [.enter script] w

end Workspace

/- A whole run -/

structure Summary where
  findings : List Finding := []
  stats : Stats := {}
  deriving DecidableEq, Repr

namespace Summary

def changed (s : Summary) : Bool :=
  0 < s.stats.codeChanges

def add (s t : Summary) : Summary where
  findings := s.findings ++ t.findings
  stats := s.stats.add t.stats

end Summary

-- The forest is what a run leaves behind, also when it fails.
abbrev RunOutcome := Except ConversionError Summary × Forest

namespace Forest

-- The registry begins empty.
def runScript (f : Forest) (options : Options) (script : Ref) : Outcome Unit :=
  match f.expectKind script .script with
  | .error e => (.error (.tree e), { forest := f })
  | .ok () => { forest := f : Workspace }.walk options script

def convertScript (f : Forest) (options : Options) (script : Ref) : RunOutcome :=
  let (result, w) := f.runScript options script
  (result.map fun () => { findings := w.findings, stats := w.stats }, w.forest)

-- What is not a script stays as it is.
def convertScripts (options : Options) : List Ref → Summary → Forest → RunOutcome
  | [], s, f => (.ok s, f)
  | r :: rs, s, f =>
    if f.isKind r .script then
      match f.convertScript options r with
      | (.ok t, f) => convertScripts options rs (s.add t) f
      | failed => failed
    else
      convertScripts options rs s f

-- Converts a script, or every script of a root.
def convert (f : Forest) (options : Options) (root : Ref) : RunOutcome :=
  if f.isKind root .script then
    f.convertScript options root
  else
    match f.expectKind root .root with
    | .error e => (.error (.tree e), f)
    | .ok () => convertScripts options (f.children root) {} f

end Forest

end ClassLift
