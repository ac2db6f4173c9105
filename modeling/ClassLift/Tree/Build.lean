import ClassLift.Tree.Forest

/-!
New nodes. A tree grows from its leaves: the children of a new node are made before it, and hang
below nothing until then. Each operation gives the larger forest and the new node.
-/

namespace ClassLift.Forest

def setParents (f : Forest) (children : List Ref) (parent : Ref) : Forest :=
  children.foldl (·.setParent · parent) f

-- The list of children is taken as it is, also where it names nodes that the forest does not have.
def link (f : Forest) (parent : Ref) (children : List Ref) : Forest :=
  (f.setParents children parent).setChildren parent children

def push (f : Forest) (n : Node) (children : List Ref) : Forest × Ref :=
  let r := some f.size
  ({ f with nodes := f.nodes.push n }.link r children, r)

def add (f : Forest) (kind : Kind) (children : List Ref) : Forest × Ref :=
  f.push { kind } children

def addText (f : Forest) (kind : Kind) (text : String) (children : List Ref) : Forest × Ref :=
  let data := f.texts.size
  { f with texts := f.texts.push text }.push { kind, data } children

def addScript (f : Forest) (fileName : String) (statements : List Ref) : Forest × Ref :=
  let data := f.files.size
  { f with files := f.files.push fileName }.push { kind := .script, data } statements

def addIdentifier (f : Forest) (text : String) : Forest × Ref :=
  f.addText .identifier text []

-- The identifier comes before the access.
def addPropertyAccess (f : Forest) (object : Ref) (name : String) : Forest × Ref :=
  let (f, identifier) := f.addIdentifier name
  f.add .propertyAccess [object, identifier]

-- The identifier comes before the declaration.
def addVariableDeclaration (f : Forest) (name : String) (value : Option Ref) : Forest × Ref :=
  let (f, identifier) := f.addIdentifier name
  f.add .variableDeclaration (identifier :: value.toList)

def addFunction (f : Forest) (name parameters body : Ref) : Forest × Ref :=
  f.add .function [name, parameters, body]

def addClass (f : Forest) (name superclass members : Ref) : Forest × Ref :=
  f.add .classDefinition [name, superclass, members]

/- Marks on a node -/

def addFlags (f : Forest) (r : Ref) (flags : Flags) : Forest :=
  f.modify r fun n => { n with flags := n.flags.union flags }

def addMember (f : Forest) (name : String) (isStatic : Bool) (function : Ref) : Forest × Ref :=
  let (f, member) := f.addText .memberFunction name [function]
  (if isStatic then f.addFlags member .static else f, member)

def setSpan (f : Forest) (r : Ref) (pos stop : UInt32) : Forest :=
  f.modify r ({ · with pos, stop })

def copySpan (f : Forest) (source target : Ref) : Forest :=
  match f.node? source with
  | some n => f.setSpan target n.pos n.stop
  | none => f

def setDoc (f : Forest) (r : Ref) (doc : Option Nat) : Forest :=
  f.modify r ({ · with doc })

def addDoc (f : Forest) (d : Doc) : Forest × Nat :=
  ({ f with docs := f.docs.push d }, f.docs.size)

def attachDoc (f : Forest) (r : Ref) (d : Doc) : Forest × Nat :=
  let (f, index) := f.addDoc d
  (f.setDoc r (some index), index)

end ClassLift.Forest
