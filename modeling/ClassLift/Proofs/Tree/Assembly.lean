import ClassLift.Proofs.Tree.Edits

/-!
Forests that are assembled from nothing, one call after the other. A new node gets trees that hang below
nothing, and a mark names documentation that is there; an edit gets whatever it gets, and may fail. The
check accepts what comes out.
-/

namespace ClassLift.Forest

variable {f g : Forest} {r p : Ref} {cs : List Ref}

instance (f : Forest) (r : Ref) : Decidable (f.Has r) :=
  inferInstanceAs (Decidable (_ = true))

instance (f : Forest) (cs : List Ref) : Decidable (f.Loose cs) :=
  decidable_of_iff ((∀ c ∈ cs, f.Has c) ∧ (∀ c ∈ cs, f.parent c = none) ∧ cs.Nodup)
    ⟨fun ⟨has, free, nodup⟩ => ⟨has, free, nodup⟩, fun l => ⟨l.has, l.free, l.nodup⟩⟩

inductive Call
  -- New nodes. Those of most kinds only differ in their children.
  | add (kind : Kind) (children : List Ref)
  | addText (kind : { k : Kind // k.hasText }) (text : String) (children : List Ref)
  | addScript (fileName : String) (statements : List Ref)
  | addPropertyAccess (object : Ref) (name : String)
  | addVariableDeclaration (name : String) (value : Option Ref)
  | addMember (name : String) (isStatic : Bool) (function : Ref)
  -- Marks on a node.
  | addDoc (d : Doc)
  | attachDoc (r : Ref) (d : Doc)
  | setDoc (r : Ref) (doc : Option Nat)
  | setSpan (r : Ref) (pos stop : UInt32)
  | copySpan (source target : Ref)
  | addFlags (r : Ref) (flags : Flags)
  -- Edits.
  | detach (r : Ref)
  | appendChild (parent child : Ref)
  | replaceChild (parent old new : Ref)
  | replaceWith (old new : Ref)
  | detachChildren (r : Ref)

namespace Call

-- What a call may count on. Edits count on nothing.
def Fits (f : Forest) : Call → Prop
  | add _ children => f.Loose children
  | addText _ _ children => f.Loose children
  | addScript _ statements => f.Loose statements
  | addPropertyAccess object _ => f.Loose [object]
  | addVariableDeclaration _ value => f.Loose value.toList
  | addMember _ _ function => f.Loose [function]
  | setDoc _ doc => ∀ d ∈ doc, d < f.docs.size
  | _ => True

instance (f : Forest) : (c : Call) → Decidable (c.Fits f)
  | add .. | addText .. | addScript .. | addPropertyAccess .. | addVariableDeclaration .. | addMember .. =>
    inferInstanceAs (Decidable (f.Loose _))
  | setDoc _ doc => inferInstanceAs (Decidable (∀ d ∈ doc, d < f.docs.size))
  | addDoc .. | attachDoc .. | setSpan .. | copySpan .. | addFlags .. | detach .. | appendChild ..
  | replaceChild .. | replaceWith .. | detachChildren .. => inferInstanceAs (Decidable True)

-- An edit that fails leaves the forest as it was.
def apply (f : Forest) : Call → Forest
  | add kind children => (f.add kind children).1
  | addText kind text children => (f.addText kind text children).1
  | addScript fileName statements => (f.addScript fileName statements).1
  | addPropertyAccess object name => (f.addPropertyAccess object name).1
  | addVariableDeclaration name value => (f.addVariableDeclaration name value).1
  | addMember name isStatic function => (f.addMember name isStatic function).1
  | addDoc d => (f.addDoc d).1
  | attachDoc r d => (f.attachDoc r d).1
  | setDoc r doc => f.setDoc r doc
  | setSpan r pos stop => f.setSpan r pos stop
  | copySpan source target => f.copySpan source target
  | addFlags r flags => f.addFlags r flags
  | detach r => (f.detach r).toOption.getD f
  | appendChild parent child => (f.appendChild parent child).toOption.getD f
  | replaceChild parent old new => (f.replaceChild parent old new).toOption.getD f
  | replaceWith old new => (f.replaceWith old new).toOption.getD f
  | detachChildren r => ((f.detachChildren r).toOption.map (·.1)).getD f

end Call

-- Every call finds what it may count on.
def Admits : Forest → List Call → Prop
  | _, [] => True
  | f, c :: cs => c.Fits f ∧ Admits (c.apply f) cs

instance : (f : Forest) → (cs : List Call) → Decidable (f.Admits cs)
  | _, [] => inferInstanceAs (Decidable True)
  | f, c :: cs =>
    have : Decidable ((c.apply f).Admits cs) := instDecidableAdmits (c.apply f) cs
    inferInstanceAs (Decidable (c.Fits f ∧ (c.apply f).Admits cs))

def assemble (calls : List Call) : Forest :=
  calls.foldl Call.apply {}

/- New nodes -/

theorem valid_empty : ({} : Forest).Valid := by
  have no (r : Ref) : ({} : Forest).node? r = none := by cases r <;> rfl
  have orphan (r : Ref) : ({} : Forest).parent r = none := by rw [parent, no]; rfl
  refine ⟨?_, fun p => ?_, fun r => .up ?_, fun {r n d s} hl => ?_, fun {r d} hd => ?_⟩
  · simp [children, no, orphan, eq_comm]
  · simp [children, no]
  · exact (orphan r).symm ▸ rooted_none
  · cases (congrArg (·.map Node.bare) (no r)).symm.trans hl
  · cases (congrArg (·.bind (·.doc)) (no r)).symm.trans hd

theorem valid_addScript (v : f.Valid) (l : f.Loose cs) (fileName : String) :
    (f.addScript fileName cs).1.Valid := by
  let f' : Forest := { f with files := f.files.push fileName }
  have v' : f'.Valid := v.enlarge rfl (Nat.le_refl _) (by simp [f']) (Nat.le_refl _)
  have fresh : f'.Fresh { kind := .script, data := some f.files.size } cs := {
    bare  := rfl
    has   := l.has
    free  := l.free
    nodup := l.nodup
    data  := by simp [poolSize?, f']
    doc   := by simp }
  exact fresh.valid_push v'

-- Nodes that have the new identifier as a child have it beside those that were there.
theorem valid_addIdentifier (v : f.Valid) (l : f.Loose cs) (text : String) {ds : List Ref} (kind : Kind)
    (same : ds.Perm ((f.addIdentifier text).2 :: cs)) :
    ((f.addIdentifier text).1.add kind ds).1.Valid := by
  have ⟨d, _⟩ := adds_addText v .nil .identifier rfl text
  have beside : (f.addIdentifier text).1.Loose ((f.addIdentifier text).2 :: cs) := d.exchange [] cs l
  exact (adds_add d.valid (beside.perm same) kind).valid

/- Marks -/

theorem Valid.mark (v : f.Valid) {mark : Node → Node} (parent : ∀ n, (mark n).parent = n.parent)
    (children : ∀ n, (mark n).children = n.children)
    (kept : ∀ n, (mark n).kind = n.kind ∧ (mark n).data = n.data)
    (doc : ∀ n d, f.node? p = some n → (mark n).doc = some d → d < f.docs.size) :
    (f.modify p mark).Valid := by
  refine v.relabel (.modify parent children) (fun {m d s} hl hd hs => ?data) fun {d} hd => ?doc
  case data =>
    rw [label?, node?_modify_self, Option.map_map, Option.map_eq_some_iff] at hl
    obtain ⟨n, hn, rfl⟩ := hl
    have label : f.label? p = some n.bare := congrArg (·.map Node.bare) hn
    have pool : (f.modify p mark).poolSize? (mark n).bare.kind = f.poolSize? n.bare.kind := by
      rw [show (mark n).bare.kind = n.bare.kind from (kept n).left]
      simp [poolSize?]
    exact v.data label ((kept n).right.symm.trans hd) (pool ▸ hs)
  case doc =>
    rw [docIndex?, node?_modify_self, Option.bind_map] at hd
    obtain ⟨n, hn, hd⟩ := Option.bind_eq_some_iff.mp hd
    exact doc n d hn hd

theorem Valid.doc_of_node? (v : f.Valid) {n : Node} {d : Nat} (hn : f.node? r = some n)
    (hd : n.doc = some d) : d < f.docs.size :=
  v.doc (r := r) (by rw [docIndex?, hn]; exact hd)

theorem valid_setSpan (v : f.Valid) (r : Ref) (pos stop : UInt32) : (f.setSpan r pos stop).Valid :=
  v.mark (fun _ => rfl) (fun _ => rfl) (fun _ => ⟨rfl, rfl⟩) fun _ _ hn hd => v.doc_of_node? hn hd

theorem valid_copySpan (v : f.Valid) (source target : Ref) : (f.copySpan source target).Valid := by
  unfold copySpan
  split
  case h_1 => exact valid_setSpan v ..
  case h_2 => exact v

theorem valid_addFlags (v : f.Valid) (r : Ref) (flags : Flags) : (f.addFlags r flags).Valid :=
  v.mark (fun _ => rfl) (fun _ => rfl) (fun _ => ⟨rfl, rfl⟩) fun _ _ hn hd => v.doc_of_node? hn hd

theorem valid_setDoc (v : f.Valid) (r : Ref) {doc : Option Nat} (h : ∀ d ∈ doc, d < f.docs.size) :
    (f.setDoc r doc).Valid :=
  v.mark (fun _ => rfl) (fun _ => rfl) (fun _ => ⟨rfl, rfl⟩) fun _ d _ hd => h d hd

theorem valid_addDoc (v : f.Valid) (d : Doc) : (f.addDoc d).1.Valid :=
  v.enlarge rfl (Nat.le_refl _) (Nat.le_refl _) (by simp [addDoc])

/- Calls -/

-- Whatever comes of an edit that succeeds is valid, and otherwise nothing has changed.
theorem valid_edit (v : f.Valid) {result : Except TreeError Forest}
    (h : ∀ g, result = .ok g → g.Valid) : (result.toOption.getD f).Valid := by
  cases hr : result
  case error => exact v
  case ok g => exact h g hr

theorem Call.valid_apply (v : f.Valid) {c : Call} (h : c.Fits f) : (c.apply f).Valid := by
  cases c
  case add kind _ => exact (adds_add v h kind).valid
  case addText kind text _ => exact (adds_addText v h kind kind.property text).left.valid
  case addScript fileName _ => exact valid_addScript v h fileName
  case addPropertyAccess name => exact valid_addIdentifier v h name .propertyAccess (.swap ..)
  case addVariableDeclaration name _ => exact valid_addIdentifier v h name .variableDeclaration (.refl _)
  case addMember name isStatic _ => exact (adds_addMember v h name isStatic).left.valid
  case addDoc d => exact valid_addDoc v d
  case attachDoc r d => exact valid_setDoc (valid_addDoc v d) r (by simp [Forest.addDoc])
  case setDoc r _ => exact valid_setDoc v r h
  case setSpan r pos stop => exact valid_setSpan v r pos stop
  case copySpan source target => exact valid_copySpan v source target
  case addFlags r flags => exact valid_addFlags v r flags
  case detach => exact valid_edit v fun g hg => (detaches_of_ok v hg).valid v
  case appendChild => exact valid_edit v fun g hg => (appends_of_ok v hg).valid v
  case replaceChild => exact valid_edit v fun g hg => (replaces_of_ok v hg).valid v
  case replaceWith =>
    exact valid_edit v fun g hg => (replaces_of_ok v (replaceWith_eq_ok.mp hg).right).valid v
  case detachChildren r =>
    rw [apply]
    cases hr : f.detachChildren r
    case error => exact v
    case ok result =>
      obtain ⟨g, children⟩ := result
      exact (empties_of_ok v hr).right.valid v

theorem Valid.foldl_apply (v : f.Valid) {calls : List Call} (h : f.Admits calls) :
    (calls.foldl Call.apply f).Valid := by
  induction calls generalizing f
  case nil => exact v
  case cons c cs ih => exact ih (Call.valid_apply v h.left) h.right

-- The check accepts every forest that is assembled from nothing, whichever edits are tried on the way.
theorem check_assemble (calls : List Call) (h : Admits {} calls) : (assemble calls).check = .ok () :=
  check_of_valid (valid_empty.foldl_apply h)

-- An access is exchanged for a longer one. On the way there are edits that fail: a root would go below
-- itself, a node below two parents, and some nodes have no parent or are not there.
def calls : List Call := [
    .add .thisKeyword [],
    .addPropertyAccess (some 0) "a",
    .add .expressionStatement [some 2],
    .addScript "a.js" [some 3],
    .add .root [some 4],
    .attachDoc (some 3) (.constructor none none),
    .appendChild (some 3) (some 5),
    .appendChild (some 4) (some 2),
    .replaceWith (some 5) (some 5),
    .detach none,
    .detach (some 2),
    .addPropertyAccess (some 2) "b",
    .appendChild (some 3) (some 7)]

theorem check_assemble_calls :
    Admits {} calls ∧ (assemble calls).children (some 3) = [some 7] ∧ (assemble calls).check = .ok () := by
  have admitted : Admits {} calls := by decide
  exact ⟨admitted, rfl, check_assemble calls admitted⟩

end ClassLift.Forest
