import ClassLift.Tree.Check

/-!
Documents: a forest together with the root of its tree, and their JSON form. In it a missing
reference is the largest number of 32 bits, so a node or a text of that number cannot be named.
-/

namespace ClassLift

open Json

def nothing : Nat := 0xffffffff

namespace Ref

def ofNumber (n : Nat) : Ref :=
  if n = nothing then none else some n

def toNumber (r : Ref) : Nat :=
  r.getD nothing

theorem ofNumber_toNumber {r : Ref} (h : r ≠ some nothing) : ofNumber r.toNumber = r := by
  cases r <;> simp_all [ofNumber, toNumber]

def toJson (r : Ref) : Value :=
  .number r.toNumber

def reader : Reader Ref :=
  Reader.word.map (ofNumber ·.toNat)

end Ref

namespace Node

def toJson (n : Node) : Value :=
  .object [
    ("kind", .text n.kind.name),
    ("flags", .text n.flags.toText),
    ("pos", .number n.pos.toNat),
    ("end", .number n.stop.toNat),
    ("data_index", Ref.toJson n.data),
    ("jsdoc", .ofOption .number n.doc),
    ("parent", n.parent.toJson),
    ("children", .array (n.children.map Ref.toJson))]

structure Draft where
  kind : Option Kind := none
  flags : Option Flags := none
  pos : Option UInt32 := none
  stop : Option UInt32 := none
  data : Option Ref := none
  doc : Option (Option UInt32) := none
  parent : Option Ref := none
  children : Option (List Ref) := none

def jsonMembers : List (Member Draft) := [
    .of "kind" (·.kind) (fun a d => { d with kind := some a }) Kind.reader,
    .of "flags" (·.flags) (fun a d => { d with flags := some a }) Flags.reader,
    .of "pos" (·.pos) (fun a d => { d with pos := some a }) .word,
    .of "end" (·.stop) (fun a d => { d with stop := some a }) .word,
    .of "data_index" (·.data) (fun a d => { d with data := some a }) Ref.reader,
    .of "jsdoc" (·.doc) (fun a d => { d with doc := some a }) (.orNull .word),
    .of "parent" (·.parent) (fun a d => { d with parent := some a }) Ref.reader,
    .of "children" (·.children) (fun a d => { d with children := some a }) (.list Ref.reader)]

-- Only the kind is needed.
def Draft.finish (d : Draft) : Option Node :=
  d.kind.map fun kind => {
    kind
    flags := d.flags.getD {}
    pos := d.pos.getD 0
    stop := d.stop.getD 0
    data := d.data.getD none
    doc := (d.doc.getD none).map (·.toNat)
    parent := d.parent.getD none
    children := d.children.getD [] }

def reader : Reader Node :=
  .record jsonMembers .skipped {} Draft.finish

end Node

-- The entries of the pools of texts and file names are objects with a single member.
def wrap (key text : String) : Value :=
  .object [(key, .text text)]

def wrapped (key : String) : Reader String :=
  .record [.of key id (fun text _ => some text) .text] .skipped none id

namespace Forest

def toJson (f : Forest) : Value :=
  .object [
    ("nodes", .array (f.nodes.toList.map Node.toJson)),
    ("identifiers", .array (f.texts.toList.map (wrap "escaped_text"))),
    ("source_files", .array (f.files.toList.map (wrap "fileName"))),
    ("jsdocs", .array (f.docs.toList.map Doc.toJson))]

structure Draft where
  nodes : Option (List Node) := none
  texts : Option (List String) := none
  files : Option (List String) := none
  docs : Option (List Doc) := none

def jsonMembers : List (Member Draft) := [
    .of "nodes" (·.nodes) (fun a d => { d with nodes := some a }) (.list Node.reader),
    .of "identifiers" (·.texts) (fun a d => { d with texts := some a }) (.list (wrapped "escaped_text")),
    .of "source_files" (·.files) (fun a d => { d with files := some a }) (.list (wrapped "fileName")),
    .of "jsdocs" (·.docs) (fun a d => { d with docs := some a }) (.list Doc.reader)]

def Draft.finish (d : Draft) : Option Forest :=
  d.nodes.map fun nodes => {
    nodes := nodes.toArray
    texts := (d.texts.getD []).toArray
    files := (d.files.getD []).toArray
    docs := (d.docs.getD []).toArray }

def reader : Reader Forest :=
  .record jsonMembers .skipped {} Draft.finish

end Forest

structure Document where
  root : Ref
  forest : Forest
  deriving DecidableEq, Repr

namespace Document

def toJson (d : Document) : Value :=
  .object [("root", d.root.toJson), ("arena", d.forest.toJson)]

def toText (d : Document) (l : Layout) : String :=
  d.toJson.render l

structure Draft where
  root : Option Ref := none
  forest : Option Forest := none

def jsonMembers : List (Member Draft) := [
    .of "root" (·.root) (fun a d => { d with root := some a }) Ref.reader,
    .of "arena" (·.forest) (fun a d => { d with forest := some a }) Forest.reader]

def Draft.finish (d : Draft) : Option Document := do
  return { root := ← d.root, forest := ← d.forest }

def reader : Reader Document :=
  .record jsonMembers .skipped {} Draft.finish

-- The root has to be there before the whole forest is checked.
def accept (d : Document) : Except TreeError Document := do
  if (d.forest.node? d.root).isNone then
    throw (.invalidIndex d.root)
  d.forest.check
  return d

def ofText (text : String) : Except TreeError Document :=
  match reader.read text with
  | .ok d => d.accept
  | .error _ => .error .malformed

end Document

end ClassLift
