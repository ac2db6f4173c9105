import ClassLift.Tree.Error

/-!
The check of a whole forest: both ends of every edge agree, what a node refers to in the pools is
there, and no node is above itself.
-/

namespace ClassLift.Forest

-- Passes over the children of a node, marking in `listed` which nodes some list has named so far.
def checkChildren (f : Forest) (parent : NodeId) :
    List Ref → Array Bool → Except TreeError (Array Bool)
  | [], listed => .ok listed
  | none :: _, _ => .error (.invalidIndex none)
  | some child :: rest, listed =>
    match f.nodes[child]? with
    | none => .error (.invalidIndex (some child))
    | some n =>
      if listed[child]?.getD false then
        .error (.duplicateChild (some child) (some parent))
      else if n.parent ≠ some parent then
        .error (.notAChild (some child) (some parent))
      else
        f.checkChildren parent rest (listed.setIfInBounds child true)

def checkParent (f : Forest) (i : NodeId) (n : Node) : Except TreeError Unit :=
  match n.parent with
  | none => .ok ()
  | some parent =>
    match f.nodes[parent]? with
    | none => .error (.invalidIndex (some parent))
    | some p =>
      if some i ∈ p.children then .ok () else .error (.notAChild (some i) (some parent))

-- How many entries the pool has that a node of this kind keeps its text in.
def poolSize? (f : Forest) (kind : Kind) : Option Nat :=
  if kind = .script then some f.files.size
  else if kind.hasText then some f.texts.size
  else none

def checkData (f : Forest) (i : NodeId) (n : Node) : Except TreeError Unit :=
  match n.data, f.poolSize? n.kind with
  | some data, some size =>
    if data < size then .ok () else .error (.danglingData (some i) n.kind data)
  | _, _ => .ok ()

def checkDoc (f : Forest) (i : NodeId) (n : Node) : Except TreeError Unit :=
  match n.doc with
  | none => .ok ()
  | some doc => if doc < f.docs.size then .ok () else .error (.danglingData (some i) n.kind doc)

def checkNode (f : Forest) (listed : Array Bool) (i : NodeId) (n : Node) :
    Except TreeError (Array Bool) := do
  let listed ← f.checkChildren i n.children listed
  f.checkParent i n
  f.checkData i n
  f.checkDoc i n
  return listed

def checkNodes (f : Forest) : Except TreeError (Array Bool) :=
  f.nodes.toList.zipIdx.foldlM (fun listed (n, i) => f.checkNode listed i n)
    (Array.replicate f.size false)

-- What the walk up the chains of parents has found out about a node.
inductive Mark
  | unvisited
  | onPath
  | rooted
  deriving DecidableEq, Repr

-- A walk up one chain of parents: the marks of all nodes, the nodes that it has passed so far, the
-- last of them first, and the node that it has come to.
structure Ascent (f : Forest) where
  marks   : Vector Mark f.size
  path    : List NodeId
  current : Ref

namespace Ascent

variable {f : Forest}

-- The marks at the end of a walk that has found the top of its chain.
def settled (w : f.Ascent) : Vector Mark f.size :=
  w.path.foldl (fun marks i => marks.setIfInBounds i .rooted) w.marks

-- One turn: the walk goes up one link, or it ends. A node that an earlier walk has passed needs no
-- second look, and a node on the path of this walk has come a second time.
def turn (w : f.Ascent) : f.Ascent ⊕ Except TreeError (Vector Mark f.size) :=
  match w.current with
  | none => .inr (.ok w.settled)
  | some i =>
    if h : i < f.size then
      match w.marks[i] with
      | .rooted    => .inr (.ok w.settled)
      | .onPath    => .inr (.error (.cycle (some i)))
      | .unvisited => .inl ⟨w.marks.set i .onPath, i :: w.path, f.parent (some i)⟩
    else .inr (.ok w.settled)

theorem count_turn_lt {w w' : f.Ascent} (h : w.turn = .inl w') :
    w'.marks.count .unvisited < w.marks.count .unvisited := by
  unfold turn at h
  split at h
  case h_1 => cases h
  case h_2 =>
    split at h
    case isFalse => cases h
    case isTrue hi =>
      split at h
      case h_1 | h_2 => cases h
      case h_3 unvisited =>
        cases h
        have here : 0 < w.marks.count .unvisited :=
          Vector.count_pos_iff.mpr (unvisited ▸ Vector.getElem_mem hi)
        have fewer : (w.marks.set _ .onPath hi).count .unvisited = w.marks.count .unvisited - 1 := by
          simp [Vector.count_set, unvisited]
        exact fewer ▸ Nat.sub_lt here Nat.one_pos

-- Takes turns until the walk ends. Each of them leaves fewer nodes unvisited.
def run (w : f.Ascent) : Except TreeError (Vector Mark f.size) :=
  match _h : w.turn with
  | .inl w' => w'.run
  | .inr result => result
termination_by w.marks.count .unvisited
decreasing_by exact count_turn_lt _h

end Ascent

-- Walks up from every node. The marks of one walk stay for the next.
def checkAcyclic (f : Forest) : Except TreeError Unit := do
  let _ ← (List.range f.size).foldlM (fun marks start => Ascent.run ⟨marks, [], some start⟩)
    (Vector.replicate f.size .unvisited)
  return ()

def check (f : Forest) : Except TreeError Unit := do
  let _ ← f.checkNodes
  f.checkAcyclic

end ClassLift.Forest
