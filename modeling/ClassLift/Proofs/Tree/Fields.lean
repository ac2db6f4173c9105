import ClassLift.Tree.Edit
import Mathlib.Data.List.Basic

/-!
What an update does to the edges of a forest and to its labels. A node is seen through three views,
its parent, its children and its label, and every update is described by what it does to each of
them.
-/

namespace ClassLift

-- A node without its edges.
def Node.bare (n : Node) : Node :=
  { n with parent := none, children := [] }

namespace Forest

variable {f g : Forest} {r r' p : Ref} {n : Node}

def Has (f : Forest) (r : Ref) : Prop :=
  (f.node? r).isSome

-- All that a node is apart from its edges.
def label? (f : Forest) (r : Ref) : Option Node :=
  (f.node? r).map Node.bare

theorem has_iff : f.Has r ↔ ∃ i < f.size, r = some i :=
  node?_isSome

theorem has_iff_label? : f.Has r ↔ (f.label? r).isSome := by
  simp [Has, label?]

theorem Has.ne_none (h : f.Has r) : r ≠ none := by
  rintro rfl
  simp [Has] at h

theorem not_has_size (f : Forest) : ¬f.Has (some f.size) := by
  simp [has_iff]

theorem has_of_children_ne_nil (h : f.children r ≠ []) : f.Has r := by
  unfold children at h
  unfold Has
  cases hn : f.node? r <;> simp_all

theorem has_of_mem_children (h : r ∈ f.children p) : f.Has p :=
  has_of_children_ne_nil (List.ne_nil_of_mem h)

theorem has_of_parent_ne_none (h : f.parent r ≠ none) : f.Has r := by
  unfold parent at h
  unfold Has
  cases hn : f.node? r <;> simp_all

theorem children_of_not_has (h : ¬f.Has r) : f.children r = [] := by
  by_contra hc
  exact h (has_of_children_ne_nil hc)

theorem parent_of_not_has (h : ¬f.Has r) : f.parent r = none := by
  by_contra hc
  exact h (has_of_parent_ne_none hc)

@[simp]
theorem parent_none (f : Forest) : f.parent none = none := rfl

@[simp]
theorem children_none (f : Forest) : f.children none = [] := rfl

-- A child that is there is one of the children.
theorem child_mem {i : Nat} (h : f.child r i ≠ none) : f.child r i ∈ f.children r := by
  unfold child at h ⊢
  cases hc : (f.children r)[i]?
  case none => simp [hc] at h
  case some c => exact List.mem_of_getElem? hc

theorem last_mem (h : f.last r ≠ none) : f.last r ∈ f.children r := by
  unfold last at h ⊢
  cases hc : (f.children r).getLast?
  case none => simp [hc] at h
  case some c => exact List.mem_of_getLast? hc

theorem members_mem (h : f.members r ≠ none) : f.members r ∈ f.children r := by
  unfold members at h ⊢
  split
  case isFalse hk => simp [hk] at h
  case isTrue hk =>
    rw [if_pos hk] at h
    exact last_mem h

theorem kind?_of_members (h : f.members r ≠ none) : f.kind? r = some .classDefinition := by
  unfold members at h
  split at h
  case isFalse => exact absurd rfl h
  case isTrue hk => exact beq_iff_eq.mp hk

theorem kind?_eq_label? : f.kind? r = (f.label? r).map (·.kind) := by
  simp [kind?, label?, Node.bare, Function.comp_def]

theorem docIndex?_eq_label? : f.docIndex? r = (f.label? r).bind (·.doc) := by
  simp [docIndex?, label?, Node.bare, Option.bind_map, Function.comp_def]

theorem has_of_kind? {k : Kind} (h : f.kind? r = some k) : f.Has r := by
  unfold kind? at h
  unfold Has
  cases hn : f.node? r <;> simp_all

theorem Has.exists_kind (h : f.Has r) : ∃ k, f.kind? r = some k := by
  have ⟨n, hn⟩ := Option.isSome_iff_exists.mp h
  exact ⟨n.kind, by simp [kind?, hn]⟩

theorem not_has_of_kind? (h : f.kind? r = none) : ¬f.Has r := fun hr => by
  have ⟨n, hn⟩ := Option.isSome_iff_exists.mp hr
  simp [kind?, hn] at h

theorem isKind_iff {k : Kind} : f.isKind r k ↔ f.kind? r = some k := by
  simp [isKind]

theorem forall_of_kind {k : Kind} {P : Ref → Prop}
    (h : ∀ i < f.size, f.isKind (some i) k → P (some i)) (r : Ref) (hk : f.kind? r = some k) : P r := by
  obtain ⟨i, hi, rfl⟩ := has_iff.mp (has_of_kind? hk)
  exact h i hi (isKind_iff.mpr hk)

-- A node is what it is seen to be through its three views.
theorem node?_of_label? (hl : f.label? r = some n) :
    f.node? r = some { n with parent := f.parent r, children := f.children r } := by
  obtain ⟨m, hm, rfl⟩ := Option.map_eq_some_iff.mp hl
  simp [hm, parent, children, Node.bare]

theorem exists_node? (hl : g.label? r = f.label? r) (hn : f.node? r = some n) :
    g.node? r = some { n with parent := g.parent r, children := g.children r } := by
  simp only [label?, hn, Option.map_some, Option.map_eq_some_iff] at hl
  have ⟨n', hn', bare⟩ := hl
  rw [hn', parent, children, hn']
  cases n
  cases n'
  simp only [Node.bare, Node.mk.injEq] at bare
  simp_all

theorem node?_eq (hl : g.label? r = f.label? r) (hp : g.parent r = f.parent r)
    (hc : g.children r = f.children r) : g.node? r = f.node? r := by
  cases hn : f.node? r
  case none => simpa [label?, hn] using hl
  case some n =>
    rw [exists_node? hl hn, hp, hc]
    simp [parent, children, hn]

/- Updates of one node -/

theorem has_modify (f : Forest) (r : Ref) (h : Node → Node) :
    (f.modify r h).Has r' ↔ f.Has r' := by
  simp [has_iff]

-- A view that the update does not concern stays as it is.
theorem map_node?_modify (f : Forest) (r : Ref) {h : Node → Node} {α : Type} (view : Node → α)
    (hv : ∀ n, view (h n) = view n) : ((f.modify r h).node? r').map view = (f.node? r').map view := by
  by_cases e : r = r'
  case pos =>
    subst e
    simp [node?_modify_self, hv, Function.comp_def]
  case neg => rw [node?_modify_of_ne _ _ e]

theorem parent_eq_map : f.parent r = ((f.node? r).map (·.parent)).join := by
  unfold parent
  cases f.node? r <;> rfl

theorem children_eq_map : f.children r = ((f.node? r).map (·.children)).getD [] := by
  unfold children
  cases f.node? r <;> rfl

theorem parent_modify {h : Node → Node} (hv : ∀ n, (h n).parent = n.parent) :
    (f.modify r h).parent r' = f.parent r' := by
  rw [parent_eq_map, parent_eq_map, map_node?_modify f r (·.parent) hv]

theorem children_modify {h : Node → Node} (hv : ∀ n, (h n).children = n.children) :
    (f.modify r h).children r' = f.children r' := by
  rw [children_eq_map, children_eq_map, map_node?_modify f r (·.children) hv]

theorem label?_modify {h : Node → Node} (hv : ∀ n, (h n).bare = n.bare) :
    (f.modify r h).label? r' = f.label? r' :=
  map_node?_modify f r Node.bare hv

theorem label?_modify_of_ne (f : Forest) (h : Node → Node) (hr : r ≠ r') :
    (f.modify r h).label? r' = f.label? r' := by
  simp only [label?, node?_modify_of_ne f h hr]

@[simp]
theorem texts_modify (f : Forest) (r : Ref) (h : Node → Node) : (f.modify r h).texts = f.texts := by
  cases r <;> rfl

@[simp]
theorem files_modify (f : Forest) (r : Ref) (h : Node → Node) : (f.modify r h).files = f.files := by
  cases r <;> rfl

@[simp]
theorem docs_modify (f : Forest) (r : Ref) (h : Node → Node) : (f.modify r h).docs = f.docs := by
  cases r <;> rfl

/- Updates of an edge -/

@[simp]
theorem has_setParent : (f.setParent r p).Has r' ↔ f.Has r' :=
  has_modify ..

@[simp]
theorem label?_setParent : (f.setParent r p).label? r' = f.label? r' :=
  label?_modify fun _ => rfl

@[simp]
theorem children_setParent : (f.setParent r p).children r' = f.children r' :=
  children_modify fun _ => rfl

theorem parent_setParent (h : f.Has r) :
    (f.setParent r p).parent r' = if r' = r then p else f.parent r' := by
  split
  case isTrue e =>
    subst e
    have ⟨n, hn⟩ := Option.isSome_iff_exists.mp h
    simp [parent, setParent, node?_modify_self, hn]
  case isFalse e => simp [parent, setParent, node?_modify_of_ne _ _ (Ne.symm e)]

@[simp]
theorem has_setChildren {cs : List Ref} : (f.setChildren r cs).Has r' ↔ f.Has r' :=
  has_modify ..

@[simp]
theorem label?_setChildren {cs : List Ref} : (f.setChildren r cs).label? r' = f.label? r' :=
  label?_modify fun _ => rfl

@[simp]
theorem parent_setChildren {cs : List Ref} : (f.setChildren r cs).parent r' = f.parent r' :=
  parent_modify fun _ => rfl

theorem children_setChildren {cs : List Ref} (h : f.Has r) :
    (f.setChildren r cs).children r' = if r' = r then cs else f.children r' := by
  split
  case isTrue e =>
    subst e
    have ⟨n, hn⟩ := Option.isSome_iff_exists.mp h
    simp [children, setChildren, node?_modify_self, hn]
  case isFalse e => simp [children, setChildren, node?_modify_of_ne _ _ (Ne.symm e)]

-- Whatever a chain of updates leaves alone one by one, it leaves alone.
theorem setParents_preserves {α : Sort*} (view : Forest → α)
    (hv : ∀ f r, view (f.setParent r p) = view f) (f : Forest) (cs : List Ref) :
    view (f.setParents cs p) = view f := by
  induction cs generalizing f
  case nil => rfl
  case cons c cs ih => exact (ih _).trans (hv f c)

@[simp]
theorem has_setParents {cs : List Ref} : (f.setParents cs p).Has r ↔ f.Has r :=
  Eq.to_iff (setParents_preserves (·.Has r) (fun _ _ => propext has_setParent) f cs)

@[simp]
theorem label?_setParents {cs : List Ref} : (f.setParents cs p).label? r = f.label? r :=
  setParents_preserves (·.label? r) (fun _ _ => label?_setParent) f cs

@[simp]
theorem children_setParents {cs : List Ref} : (f.setParents cs p).children r = f.children r :=
  setParents_preserves (·.children r) (fun _ _ => children_setParent) f cs

theorem parent_setParents {cs : List Ref} (h : ∀ c ∈ cs, f.Has c) :
    (f.setParents cs p).parent r = if r ∈ cs then p else f.parent r := by
  induction cs generalizing f
  case nil => simp [setParents]
  case cons c cs ih =>
    have hc := h c (List.mem_cons_self ..)
    have ht : ∀ c' ∈ cs, (f.setParent c p).Has c' := fun c' h' => by
      simpa using h c' (List.mem_cons_of_mem _ h')
    have := ih ht
    simp only [setParents, List.foldl_cons] at this ⊢
    rw [this, parent_setParent hc]
    by_cases hr : r ∈ cs <;> by_cases hrc : r = c <;> simp [hr, hrc]

@[simp]
theorem texts_setParent : (f.setParent r p).texts = f.texts :=
  texts_modify ..

@[simp]
theorem files_setParent : (f.setParent r p).files = f.files :=
  files_modify ..

@[simp]
theorem docs_setParent : (f.setParent r p).docs = f.docs :=
  docs_modify ..

@[simp]
theorem texts_setParents {cs : List Ref} : (f.setParents cs p).texts = f.texts :=
  setParents_preserves (·.texts) (fun _ _ => texts_setParent) f cs

@[simp]
theorem files_setParents {cs : List Ref} : (f.setParents cs p).files = f.files :=
  setParents_preserves (·.files) (fun _ _ => files_setParent) f cs

@[simp]
theorem docs_setParents {cs : List Ref} : (f.setParents cs p).docs = f.docs :=
  setParents_preserves (·.docs) (fun _ _ => docs_setParent) f cs

@[simp]
theorem texts_setChildren {cs : List Ref} : (f.setChildren r cs).texts = f.texts :=
  texts_modify ..

@[simp]
theorem files_setChildren {cs : List Ref} : (f.setChildren r cs).files = f.files :=
  files_modify ..

@[simp]
theorem docs_setChildren {cs : List Ref} : (f.setChildren r cs).docs = f.docs :=
  docs_modify ..

end Forest

end ClassLift
