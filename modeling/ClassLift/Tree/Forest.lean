import ClassLift.Tree.Doc
import ClassLift.Tree.Flags
import ClassLift.Tree.Kind

/-!
A forest of syntax nodes. Nodes are numbered and never removed; a node that is taken out of its tree
only loses its edges. Every edge is stored twice, as a child of the one node and as the parent of
the other. Texts, file names and documentation are kept in pools beside the nodes.
-/

namespace ClassLift

abbrev NodeId := Nat

-- A node, or nothing.
abbrev Ref := Option NodeId

instance : LawfulBEq Ref :=
  inferInstance

namespace Ref

def toText : Ref → String
  | none => "<none>"
  | some i => "#" ++ toString i

def toDebugText : Ref → String
  | none => "NodeIndex(NONE)"
  | some i => "NodeIndex(" ++ toString i ++ ")"

end Ref

structure Node where
  kind : Kind
  flags : Flags := {}
  -- The span in the source.
  pos : UInt32 := 0
  stop : UInt32 := 0
  -- Where the text or the file name is in its pool.
  data : Option Nat := none
  doc : Option Nat := none
  parent : Ref := none
  children : List Ref := []
  deriving DecidableEq, Repr

namespace Node

def isStatic (n : Node) : Bool :=
  n.flags.contains .static

def width (n : Node) : Nat :=
  n.stop.toNat - n.pos.toNat

end Node

structure Forest where
  nodes : Array Node := #[]
  texts : Array String := #[]
  files : Array String := #[]
  docs : Array Doc := #[]
  deriving DecidableEq, Repr

namespace Forest

def size (f : Forest) : Nat :=
  f.nodes.size

def node? (f : Forest) (r : Ref) : Option Node :=
  r.bind (f.nodes[·]?)

-- Does nothing if there is no such node.
def modify (f : Forest) (r : Ref) (g : Node → Node) : Forest :=
  match r with
  | none => f
  | some i => { f with nodes := f.nodes.modify i g }

def setParent (f : Forest) (r parent : Ref) : Forest :=
  f.modify r ({ · with parent })

def setChildren (f : Forest) (r : Ref) (children : List Ref) : Forest :=
  f.modify r ({ · with children })

@[simp]
theorem node?_none (f : Forest) : f.node? none = none := rfl

@[simp]
theorem node?_some (f : Forest) (i : NodeId) : f.node? (some i) = f.nodes[i]? := rfl

theorem node?_isSome {f : Forest} : (f.node? r).isSome ↔ ∃ i < f.size, r = some i := by
  cases r <;> simp [size]

@[simp]
theorem size_modify (f : Forest) (r : Ref) (g : Node → Node) : (f.modify r g).size = f.size := by
  cases r <;> simp [modify, size]

theorem node?_modify_self (f : Forest) (r : Ref) (g : Node → Node) :
    (f.modify r g).node? r = (f.node? r).map g := by
  cases r <;> simp [modify, Array.getElem?_modify]

theorem node?_modify_of_ne (f : Forest) (g : Node → Node) (h : r ≠ r') :
    (f.modify r g).node? r' = f.node? r' := by
  cases r <;> cases r' <;> simp_all [modify, Array.getElem?_modify]

/- Edges -/

def kind? (f : Forest) (r : Ref) : Option Kind :=
  (f.node? r).map (·.kind)

def isKind (f : Forest) (r : Ref) (k : Kind) : Bool :=
  f.kind? r == some k

def parent (f : Forest) (r : Ref) : Ref :=
  (f.node? r).bind (·.parent)

def children (f : Forest) (r : Ref) : List Ref :=
  (f.node? r).elim [] (·.children)

def child (f : Forest) (r : Ref) (position : Nat) : Ref :=
  (f.children r)[position]?.getD none

def first (f : Forest) (r : Ref) : Ref :=
  f.child r 0

def second (f : Forest) (r : Ref) : Ref :=
  f.child r 1

def last (f : Forest) (r : Ref) : Ref :=
  (f.children r).getLast?.getD none

def indexInParent? (f : Forest) (r : Ref) : Option Nat :=
  (f.node? (f.parent r)).bind fun n => n.children.findIdx? (· == r)

/- Parent links -/

def lineageWithin (f : Forest) : Nat → Ref → List NodeId
  | _, none => []
  | 0, _ => []
  | n + 1, some i => i :: f.lineageWithin n (f.parent (some i))

-- A node followed by its parent, its parent's parent, and so on. Without a cycle no more nodes than
-- the forest has can follow each other, and after them one that it does not have.
def lineage (f : Forest) (r : Ref) : List NodeId :=
  f.lineageWithin (f.size + 1) r

def isWithin (f : Forest) (r ancestor : Ref) : Bool :=
  (f.lineage r).any (some · == ancestor)

-- The nearest script on the way up, which may be the node itself.
def enclosingScript (f : Forest) (r : Ref) : Ref :=
  (f.lineage r).find? fun i => f.isKind (some i) .script

/- Contents of the pools -/

def text? (f : Forest) (r : Ref) : Option String :=
  (f.node? r).bind fun n => if n.kind.hasText then n.data.bind (f.texts[·]?) else none

def identifierText? (f : Forest) (r : Ref) : Option String :=
  if f.isKind r .identifier then f.text? r else none

def fileName? (f : Forest) (r : Ref) : Option String :=
  (f.node? r).bind fun n => if n.kind = .script then n.data.bind (f.files[·]?) else none

def docIndex? (f : Forest) (r : Ref) : Option Nat :=
  (f.node? r).bind (·.doc)

def doc? (f : Forest) (r : Ref) : Option Doc :=
  (f.docIndex? r).bind (f.docs[·]?)

/- Parts of functions and classes -/

def isStaticMember (f : Forest) (r : Ref) : Bool :=
  (f.node? r).any fun n => n.kind == .memberFunction && n.isStatic

def parameters (f : Forest) (function : Ref) : Ref :=
  if f.isKind function .function then f.second function else none

def body (f : Forest) (function : Ref) : Ref :=
  if f.isKind function .function then f.child function 2 else none

def members (f : Forest) (cls : Ref) : Ref :=
  if f.isKind cls .classDefinition then f.last cls else none

def superclass (f : Forest) (cls : Ref) : Ref :=
  if f.isKind cls .classDefinition && !f.isKind (f.second cls) .empty then f.second cls else none

def memberNames (f : Forest) (cls : Ref) : List String :=
  (f.children (f.members cls)).filterMap f.text?

end Forest

end ClassLift
