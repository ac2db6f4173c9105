import ClassLift.Naming.Path
import ClassLift.Proofs.Tree.Growth

/-!
Paths as texts and as trees. A text is split at its dots, which gives back the path that it is the
text of as long as no segment has a dot in it. The tree of a path is a chain of property accesses,
which is built beside the trees that are there.
-/

namespace ClassLift

namespace Path

variable {path path' : List String} {text : String}

def split (text : String) : List String :=
  (text.toList.splitOn '.').map String.ofList

@[simp]
theorem toText_singleton (segment : String) : toText [segment] = segment := by
  simp [toText]

theorem toText_split (text : String) : toText (split text) = text := by
  apply String.toList_injective
  rw [toText, String.toList_intercalate, split, List.map_map]
  have chars : String.toList ∘ String.ofList = id := funext fun _ => String.toList_ofList
  rw [chars, List.map_id]
  exact List.intercalate_splitOn '.'

-- Without dots in the segments, a path is what its text is split into.
theorem splitOn_toText (plain : ∀ segment ∈ path, '.' ∉ segment.toList) (h : path ≠ []) :
    (toText path).toList.splitOn '.' = path.map String.toList := by
  rw [toText, String.toList_intercalate]
  exact List.splitOn_intercalate _ (by simpa using plain) (by simpa using h)

theorem split_toText (plain : ∀ segment ∈ path, '.' ∉ segment.toList) (h : path ≠ []) :
    split (toText path) = path := by
  simp [split, splitOn_toText plain h, Function.comp_def]

theorem toText_inj (plain : ∀ segment ∈ path ++ path', '.' ∉ segment.toList) (h : path ≠ [])
    (h' : path' ≠ []) (same : toText path = toText path') : path = path' := by
  simp only [List.mem_append, or_imp, forall_and] at plain
  rw [← split_toText plain.left h, same, split_toText plain.right h']

theorem ofText?_eq : ofText? text = if "" ∈ split text then none else some (split text) := by
  have empty : (text.toList.splitOn '.').any (·.isEmpty) ↔ "" ∈ split text := by
    simp [split]
  unfold ofText?
  simp only [empty]
  rfl

theorem split_ne_nil (text : String) : split text ≠ [] := by
  simp [split, List.splitOn_ne_nil]

theorem ofText?_eq_some : ofText? text = some path ↔ "" ∉ split text ∧ split text = path := by
  simp [ofText?_eq]

end Path

namespace Forest

structure IsWord (f : Forest) (r : Ref) (name : String) : Prop where
  kind : f.kind? r = some .identifier
  text : f.text? r = some name
  leaf : f.children r = []

-- The tree of a path: the accesses to the later segments are around those to the earlier ones.
inductive Chain (f : Forest) : Ref → List String → Prop
  | word {r : Ref} {name : String} : f.IsWord r name → Chain f r [name]
  | access {r object property : Ref} {path : List String} {name : String} :
    f.kind? r = some .propertyAccess → f.children r = [object, property] → Chain f object path →
    f.IsWord property name → Chain f r (path ++ [name])

variable {f g : Forest} {r object property : Ref} {name : String} {path : List String}

section Extend

variable (e : g.Extends f)
include e

theorem IsWord.extend (children : g.children r = f.children r) (w : f.IsWord r name) : g.IsWord r name where
  kind := (e.kind? (has_of_kind? w.kind)).trans w.kind
  text := e.text?_of_some w.text
  leaf := children.trans w.leaf

-- A chain is kept where the nodes that it may reach are.
theorem Chain.transfer {P : Ref → Prop} (closed : ∀ {x y}, P x → y ∈ f.children x → P y)
    (children : ∀ {x}, f.Has x → P x → g.children x = f.children x) (hr : P r) (c : f.Chain r path) :
    g.Chain r path := by
  induction c
  case word w => exact .word (w.extend e (children (has_of_kind? w.kind) hr))
  case access kind below _ w ih =>
    have has := has_of_kind? kind
    have object := closed hr (below ▸ List.mem_cons_self)
    have property := closed hr (below ▸ List.mem_cons_of_mem _ List.mem_cons_self)
    exact .access ((e.kind? has).trans kind) ((children has hr).trans below) (ih object)
      (w.extend e (children (has_of_kind? w.kind) property))

theorem Chain.extend (children : ∀ {x}, f.Has x → g.children x = f.children x) (c : f.Chain r path) :
    g.Chain r path :=
  c.transfer (P := fun _ => True) e (fun _ _ => trivial) (fun hx _ => children hx) trivial

end Extend

namespace Chain

theorem ne_nil (c : f.Chain r path) : path ≠ [] := by
  cases c <;> simp

theorem has (c : f.Chain r path) : f.Has r := by
  cases c
  case word w            => exact has_of_kind? w.kind
  case access _ _ kind _ => exact has_of_kind? kind

theorem kind (c : f.Chain r path) :
    f.kind? r = some .identifier ∨ f.kind? r = some .propertyAccess := by
  cases c
  case word w            => exact .inl w.kind
  case access _ _ kind _ => exact .inr kind

theorem isWord (c : f.Chain r [name]) : f.IsWord r name := by
  generalize e : [name] = segments at c
  cases c
  case word w =>
    cases e
    exact w
  case access before _ _ _ =>
    have nil := (List.append_eq_singleton_iff.mp e.symm).resolve_right (by simp)
    exact absurd nil.left before.ne_nil

theorem isAccess (c : f.Chain r (path ++ [name])) (h : path ≠ []) :
    ∃ object property, f.kind? r = some .propertyAccess ∧ f.children r = [object, property] ∧
      f.Chain object path ∧ f.IsWord property name := by
  generalize e : path ++ [name] = segments at c
  cases c
  case word =>
    have nil := (List.append_eq_singleton_iff.mp e).resolve_right (by simp)
    exact absurd nil.left h
  case access object property _ _ before w kind children =>
    cases List.append_inj' e rfl
    case intro same last =>
      cases same
      cases last
      exact ⟨object, property, kind, children, before, w⟩

end Chain

/- Building -/

-- `g` is `f` with the tree of a path beside the others.
structure AddsPath (f g : Forest) (r : Ref) (path : List String) : Prop where
  sprouts : f.Sprouts g r
  chain   : g.Chain r path
  texts   : g.texts = f.texts ++ path.toArray

theorem Adds.isWord (d : f.Adds g r { kind := .identifier, data := some f.texts.size } [])
    (texts : g.texts = f.texts.push name) : g.IsWord r name where
  kind := d.kind?_ref
  text := d.text? rfl rfl texts
  leaf := d.children_ref

theorem addsPath_addIdentifier (v : f.Valid) (name : String) :
    f.AddsPath (f.addIdentifier name).1 (f.addIdentifier name).2 [name] := by
  have ⟨d, texts⟩ := adds_addText v .nil .identifier rfl name
  exact ⟨.of_add (.refl v) d (by simp) (by simp) rfl, .word (d.isWord texts), texts⟩

namespace AddsPath

-- The identifier and the access are two new nodes, and the tree before them hangs below the access.
theorem addPropertyAccess (a : f.AddsPath g object path) (name : String) :
    f.AddsPath (g.addPropertyAccess object name).1 (g.addPropertyAccess object name).2
      (path ++ [name]) := by
  have ⟨sprouts, chain, earlier⟩ := a
  have ⟨grows, _, newObject, _⟩ := sprouts
  have ⟨word, texts⟩ := adds_addText grows.valid .nil .identifier rfl name
  unfold Forest.addPropertyAccess addIdentifier
  generalize g.addText .identifier name [] = added at word texts ⊢
  have ⟨g', property⟩ := added
  have access := adds_add word.valid (word.exchange [object] [] sprouts.loose) .propertyAccess
  have newProperty : ¬f.Has property := fun h => word.not_has (grows.ext.has h)
  have kinds : Kind.propertyAccess.accepts ([object, property].map g'.kind?) := by
    simp [Kind.accepts, word.kind?_ref]
  refine ⟨?sprouts, ?chain, ?texts⟩
  case sprouts =>
    have grows' : f.Grows g' := grows.add word (by simp) (by simp) rfl
    exact .of_add grows' access (by simpa using ⟨newObject, newProperty⟩) (by simp) kinds
  case chain =>
    have chain := (chain.extend word.ext word.children_of_has).extend access.ext access.children_of_has
    have isWord := (word.isWord texts).extend access.ext (access.children_of_has word.has_ref)
    exact .access access.kind?_ref access.children_ref chain isWord
  case texts =>
    calc (g'.add .propertyAccess [object, property]).1.texts
      _ = g'.texts                            := texts_push ..
      _ = g.texts.push name                   := texts
      _ = f.texts ++ (path ++ [name]).toArray := by simp [earlier]

theorem addPropertyAccesses (a : f.AddsPath g object path) (names : List String) :
    let accesses := names.foldl (fun (f, object) name => f.addPropertyAccess object name) (g, object)
    f.AddsPath accesses.1 accesses.2 (path ++ names) := by
  induction names generalizing g object path
  case nil => simpa using a
  case cons name names ih =>
    rw [List.append_cons]
    exact ih (a.addPropertyAccess name)

end AddsPath

theorem addsPath_addPath (v : f.Valid) (h : f.addPath path = (g, some r)) : f.AddsPath g r path := by
  cases path
  case nil => simp [addPath] at h
  case cons head rest =>
    have added := (addsPath_addIdentifier v head).addPropertyAccesses rest
    simp only [addPath, Prod.mk.injEq, Option.some.injEq] at h
    cases h.left
    cases h.right
    exact added

/- In any forest -/

-- A chain that is read to its end, whatever the forest around it is like.
structure Spells (f : Forest) (r : Ref) (path : List String) : Prop where
  chain : f.Chain r path
  short : path.length ≤ f.size

theorem isWord_addText (f : Forest) (name : String) :
    (f.addText .identifier name []).1.IsWord (f.addText .identifier name []).2 name := by
  let g : Forest := { f with texts := f.texts.push name }
  let n : Node := { kind := .identifier, data := some f.texts.size }
  have label : (g.push n []).1.label? (some g.size) = some n := (label?_push ..).trans (if_pos rfl)
  have texts : (g.push n []).1.texts = f.texts.push name := texts_push ..
  refine ⟨?kind, ?text, (children_push ..).trans (if_pos rfl)⟩
  case kind => exact kind?_eq_label?.trans (congrArg _ label)
  case text =>
    change (g.push n []).1.text? (some g.size) = some name
    simp [text?_eq_label?, label, texts, n, Kind.hasText]

theorem spells_addIdentifier (f : Forest) (name : String) :
    (f.addIdentifier name).1.Spells (f.addIdentifier name).2 [name] where
  chain := .word (isWord_addText f name)
  short := Nat.one_le_of_lt (lt_size_addText ..)

namespace Spells

theorem addPropertyAccess (s : f.Spells object path) (name : String) :
    (f.addPropertyAccess object name).1.Spells (f.addPropertyAccess object name).2 (path ++ [name]) := by
  have word := isWord_addText f name
  have larger := lt_size_addText f .identifier name []
  have chain := s.chain.extend (extends_addText f .identifier name []) children_addText_of_has
  unfold Forest.addPropertyAccess addIdentifier
  generalize f.addText .identifier name [] = added at word larger chain ⊢
  have ⟨g, property⟩ := added
  let n : Node := { kind := .propertyAccess }
  have ext := extends_push g n [object, property]
  have label : (g.push n [object, property]).1.label? (some g.size) = some n :=
    (label?_push ..).trans (if_pos rfl)
  have children : (g.push n [object, property]).1.children (some g.size) = [object, property] :=
    (children_push ..).trans (if_pos rfl)
  refine ⟨?chain, ?short⟩
  case chain =>
    exact .access (kind?_eq_label?.trans (congrArg _ label)) children
      (chain.extend ext children_push_of_has)
      (word.extend ext (children_push_of_has (has_of_kind? word.kind)))
  case short =>
    calc (path ++ [name]).length
      _ ≤ f.size + 1                           := by simpa using s.short
      _ ≤ g.size                               := larger
      _ ≤ (g.push n [object, property]).1.size := Nat.le_of_lt (lt_size_push ..)

theorem addPropertyAccesses (s : f.Spells object path) (names : List String) :
    let accesses := names.foldl (fun (f, object) name => f.addPropertyAccess object name) (f, object)
    accesses.1.Spells accesses.2 (path ++ names) := by
  induction names generalizing f object path
  case nil => simpa using s
  case cons name names ih =>
    rw [List.append_cons]
    exact ih (s.addPropertyAccess name)

end Spells

theorem exists_addPath (f : Forest) (h : path ≠ []) :
    ∃ g r, f.addPath path = (g, some r) ∧ g.Spells r path := by
  obtain ⟨head, rest, rfl⟩ := List.exists_cons_of_ne_nil h
  exact ⟨_, _, rfl, (spells_addIdentifier f head).addPropertyAccesses rest⟩

end Forest

end ClassLift
