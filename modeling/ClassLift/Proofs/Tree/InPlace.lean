import ClassLift.Proofs.Tree.Edits

/-!
Edits that are made in place, check by check and write by write. What such an edit has written when
it fails stays written, so it has to fail before its first write or not at all. Every edit does, and
on a valid forest the forest alone tells whether it fails and what it makes.
-/

namespace ClassLift

-- An edit of a forest that others see while it is made.
abbrev Editor :=
  ExceptT TreeError (StateM Forest)

namespace Editor

variable {α β γ : Type} {f : Forest} {x : Editor α} {r p old new child : Ref}

def look (check : Forest → Except TreeError α) : Editor α := do
  ofExcept (check (← get))

def detach (r : Ref) : Editor (List Ref) := do
  look (·.require r)
  let parent := (← get).parent r
  if parent = none then
    throw (.noParent r)
  look (·.require parent)
  if r ∉ (← get).children parent then
    throw (.notAChild r parent)
  modify fun f => f.setChildren parent ((f.children parent).erase r)
  modify (·.setParent r none)
  return []

def appendChild (parent child : Ref) : Editor (List Ref) := do
  look (·.requireAttachable parent child)
  modify fun f => f.setChildren parent (f.children parent ++ [child])
  modify (·.setParent child parent)
  return []

def replaceChild (parent old new : Ref) : Editor (List Ref) := do
  look (·.require old)
  look (·.requireAttachable parent new)
  if old ∉ (← get).children parent then
    throw (.notAChild old parent)
  modify fun f => f.setChildren parent ((f.children parent).replace old new)
  modify (·.setParent old none)
  modify (·.setParent new parent)
  return []

def replaceWith (old new : Ref) : Editor (List Ref) := do
  let parent := (← get).parent old
  if parent = none then
    throw (.noParent old)
  replaceChild parent old new

def detachChildren (r : Ref) : Editor (List Ref) := do
  look (·.require r)
  let children := (← get).children r
  modify (·.setChildren r [])
  for child in children do
    modify (·.setParent child none)
  return children

/- Nothing is written before a failure -/

-- The edit ends with what is made, or it fails and leaves the forest as it was.
def Settles (x : Editor α) (f : Forest) (made : Except TreeError (Forest × α)) : Prop :=
  x.run f = match made with
  | .ok (g, a) => (.ok a, g)
  | .error e   => (.error e, f)

theorem settles_get {k : Forest → Editor α} {made : Except TreeError (Forest × α)}
    (h : (k f).Settles f made) : (get >>= k : Editor α).Settles f made := h

section Checks

variable {finish : γ → Forest × α}

theorem settles_look {check : Forest → Except TreeError β} {k : β → Editor α}
    {made : β → Except TreeError γ} (h : ∀ b, (k b).Settles f (finish <$> made b)) :
    (look check >>= k).Settles f (finish <$> (check f >>= made)) := by
  have run : (look check >>= k).run f = match check f with
      | .ok b    => (k b).run f
      | .error e => (.error e, f) := by
    show ((ofExcept (check f) : Editor β) >>= k).run f = _
    cases check f <;> rfl
  unfold Settles
  rw [run]
  cases check f
  case error => rfl
  case ok b => exact h b

theorem settles_unless {c : Prop} [Decidable c] {e : TreeError} {k : β → Editor α}
    {l : β → Except TreeError γ} {made : Except TreeError γ} (h : x.Settles f (finish <$> made)) :
    (if c then throw e >>= k else x).Settles f (finish <$> if c then throw e >>= l else made) := by
  split
  · rfl
  · exact h

end Checks

theorem settles_detach : (detach r).Settles f ((·, []) <$> f.detach r) :=
  settles_look fun _ => settles_get <| settles_unless <| settles_look fun _ => settles_get <|
    settles_unless rfl

theorem settles_appendChild : (appendChild p child).Settles f ((·, []) <$> f.appendChild p child) :=
  settles_look fun _ => rfl

theorem settles_replaceChild :
    (replaceChild p old new).Settles f ((·, []) <$> f.replaceChild p old new) :=
  settles_look fun _ => settles_look fun _ => settles_get <| settles_unless rfl

theorem settles_replaceWith :
    (replaceWith old new).Settles f ((·, []) <$> f.replaceWith old new) := by
  refine settles_get ?_
  by_cases h : f.parent old = none
  case pos =>
    simp only [h, Forest.replaceWith]
    rfl
  case neg => simpa [Forest.replaceWith, h] using settles_replaceChild

theorem run_setParents {cs : List Ref} : (do
    for child in cs do
      modify (·.setParent child p)
    x : Editor α).run f = x.run (f.setParents cs p) := by
  induction cs generalizing f
  case nil => rfl
  case cons c cs ih =>
    simp only [List.forIn_cons, bind_assoc, pure_bind]
    exact ih

theorem settles_detachChildren : (detachChildren r).Settles f (f.detachChildren r) := by
  rw [← id_map (f.detachChildren r)]
  exact settles_look fun _ => settles_get run_setParents

end Editor

/- What an edit asks of a forest, and what it makes of it -/

inductive Edit
  | detach (r : Ref)
  | appendChild (p child : Ref)
  | replaceChild (p old new : Ref)
  | replaceWith (old new : Ref)
  | detachChildren (r : Ref)

-- A child can be put below a node.
structure Forest.Attachable (f : Forest) (p child : Ref) : Prop where
  below : f.Has p
  known : f.Has child
  free  : f.parent child = none
  apart : ¬f.Contains child p

theorem Forest.Valid.attachable_iff {f : Forest} {p child : Ref} (v : f.Valid) :
    f.Attachable p child ↔ f.requireAttachable p child = .ok () := by
  constructor
  case mp  => exact fun a => requireAttachable_ok v a.below a.known a.free a.apart
  case mpr =>
    intro ok
    have ⟨below, known, free, apart⟩ := requireAttachable_eq_ok.mp ok
    refine ⟨below, known, free, ?_⟩
    simp [← v.isWithin_iff known.ne_none, apart]

namespace Edit

open Forest

variable {f g : Forest} {e : Edit} {cs : List Ref}

-- An edit hands out the nodes that were below a node if it takes all of them away.
def inPlace : Edit → Editor (List Ref)
  | detach r               => .detach r
  | appendChild p child    => .appendChild p child
  | replaceChild p old new => .replaceChild p old new
  | replaceWith old new    => .replaceWith old new
  | detachChildren r       => .detachChildren r

def make (f : Forest) : Edit → Except TreeError (Forest × List Ref)
  | detach r               => (·, []) <$> f.detach r
  | appendChild p child    => (·, []) <$> f.appendChild p child
  | replaceChild p old new => (·, []) <$> f.replaceChild p old new
  | replaceWith old new    => (·, []) <$> f.replaceWith old new
  | detachChildren r       => f.detachChildren r

theorem settles (f : Forest) (e : Edit) : e.inPlace.Settles f (e.make f) := by
  cases e
  case detach         => exact Editor.settles_detach
  case appendChild    => exact Editor.settles_appendChild
  case replaceChild   => exact Editor.settles_replaceChild
  case replaceWith    => exact Editor.settles_replaceWith
  case detachChildren => exact Editor.settles_detachChildren

def Applies (f : Forest) : Edit → Prop
  | detach r               => f.Has r ∧ f.parent r ≠ none
  | appendChild p child    => f.Attachable p child
  | replaceChild p old new => f.Has old ∧ f.Attachable p new ∧ old ∈ f.children p
  | replaceWith old new    => f.Has old ∧ f.Attachable (f.parent old) new ∧ old ∈ f.children (f.parent old)
  | detachChildren r       => f.Has r

-- The parent that a node has afterwards.
def parentIn (f : Forest) (r : Ref) : Edit → Ref
  | detach n               => if r = n then none else f.parent r
  | appendChild p child    => if r = child then p else f.parent r
  | replaceChild p old new => if r = new then p else if r = old then none else f.parent r
  | replaceWith old new    => if r = new then f.parent old else if r = old then none else f.parent r
  | detachChildren n       => if r ∈ f.children n then none else f.parent r

def substitute (cs : List Ref) (old new : Ref) : List Ref :=
  cs.set (cs.idxOf old) new

-- The children that a node has afterwards.
def childrenIn (f : Forest) (r : Ref) : Edit → List Ref
  | detach n               => if r = f.parent n then (f.children r).filter (· ≠ n) else f.children r
  | appendChild p child    => if r = p then f.children r ++ [child] else f.children r
  | replaceChild p old new => if r = p then substitute (f.children r) old new else f.children r
  | replaceWith old new    => if r = f.parent old then substitute (f.children r) old new else f.children r
  | detachChildren n       => if r = n then [] else f.children r

def handsOut (f : Forest) : Edit → List Ref
  | detachChildren r => f.children r
  | _ => []

-- Nothing but these edges is different afterwards.
structure Makes (e : Edit) (f g : Forest) : Prop where
  node  : ∀ r, g.node? r =
    (f.node? r).map ({ · with parent := e.parentIn f r, children := e.childrenIn f r })
  texts : g.texts = f.texts
  files : g.files = f.files
  docs  : g.docs = f.docs

theorem makes_of_rewires (w : g.Rewires f) (parent : ∀ r, g.parent r = e.parentIn f r)
    (children : ∀ r, g.children r = e.childrenIn f r) : e.Makes f g where
  node r := by
    cases hn : f.node? r
    case none => simpa [Forest.label?, hn] using w.label r
    case some n => rw [Forest.exists_node? (w.label r) hn, parent, children, Option.map_some]
  texts := w.texts
  files := w.files
  docs  := w.docs

-- The first occurrence is replaced.
theorem replace_eq_substitute {old new : Ref} : cs.replace old new = substitute cs old new := by
  unfold substitute
  induction cs
  case nil => rfl
  case cons c cs ih =>
    by_cases e : c = old
    case pos => simp [e]
    case neg =>
      rw [List.replace_cons, List.idxOf_cons_ne _ e, ih, beq_eq_false_iff_ne.mpr (Ne.symm e)]
      rfl

section Made

variable {r p old new child : Ref}

theorem makes_of_detaches (v : f.Valid) (d : f.Detaches g r) : (detach r).Makes f g := by
  apply makes_of_rewires d.rewires
  case parent => exact d.parent
  case children =>
    intro p
    rw [d.children, childrenIn]
    split
    case isTrue => simp [(v.nodup p).erase_eq_filter, bne, Bool.beq_eq_decide_eq]
    case isFalse h =>
      apply List.erase_of_not_mem
      intro hr
      exact h (v.parent_eq hr).symm

theorem makes_of_appends (d : f.Appends g p child) : (appendChild p child).Makes f g := by
  apply makes_of_rewires d.rewires
  case parent => exact d.parent
  case children =>
    intro q
    rw [d.children, childrenIn]
    split
    case isTrue e => rw [e]
    case isFalse => rfl

theorem makes_of_replaces (v : f.Valid) (d : f.Replaces g p old new) :
    (replaceChild p old new).Makes f g := by
  apply makes_of_rewires d.rewires
  case parent => exact d.parent
  case children =>
    intro q
    rw [d.children, childrenIn]
    split
    case isTrue => exact replace_eq_substitute
    case isFalse h =>
      apply List.replace_of_not_mem
      intro hq
      exact h <| (v.parent_eq hq).symm.trans (v.parent_eq d.mem)

theorem makes_of_empties (d : f.Empties g r) : (detachChildren r).Makes f g :=
  makes_of_rewires d.rewires d.parent d.children

end Made

theorem alone_eq_ok {x : Except TreeError Forest} :
    (·, []) <$> x = Except.ok (g, cs) ↔ x = .ok g ∧ cs = [] := by
  cases x <;> simp [Functor.map, Except.map, eq_comm]

theorem exists_detachChildren {r : Ref} (h : f.Has r) :
    ∃ g, f.detachChildren r = .ok (g, f.children r) := by
  have required : f.require r = .ok () := require_eq_ok.mpr h
  exact ⟨_, by rw [Forest.detachChildren, required]; rfl⟩

theorem make_of_applies (v : f.Valid) (h : e.Applies f) :
    ∃ g, e.make f = .ok (g, e.handsOut f) ∧ e.Makes f g := by
  cases e
  case detach r =>
    have ⟨g, ok⟩ := exists_detach v h.right
    exact ⟨g, by simp [make, ok, handsOut], makes_of_detaches v (detaches_of_ok v ok)⟩
  case appendChild p child =>
    have ⟨g, ok⟩ := exists_appendChild v h.below h.known h.free h.apart
    exact ⟨g, by simp [make, ok, handsOut], makes_of_appends (appends_of_ok v ok)⟩
  case replaceChild p old new =>
    have ⟨has, attachable, mem⟩ := h
    have ok := replaceChild_eq_ok.mpr ⟨has, v.attachable_iff.mp attachable, mem, rfl⟩
    exact ⟨_, by simp [make, ok, handsOut], makes_of_replaces v (replaces_of_ok v ok)⟩
  case replaceWith old new =>
    have ⟨has, attachable, mem⟩ := h
    have ok := replaceChild_eq_ok.mpr ⟨has, v.attachable_iff.mp attachable, mem, rfl⟩
    have made := makes_of_replaces v (replaces_of_ok v ok)
    refine ⟨_, ?_, ⟨made.node, made.texts, made.files, made.docs⟩⟩
    simp [make, replaceWith_eq_ok.mpr ⟨(v.mem_children.mp mem).right, ok⟩, handsOut]
  case detachChildren r =>
    have ⟨g, ok⟩ := exists_detachChildren h
    exact ⟨g, ok, makes_of_empties (empties_of_ok v ok).right⟩

theorem applies_of_make (v : f.Valid) (ok : e.make f = .ok (g, cs)) : e.Applies f := by
  cases e
  case detach r =>
    have ⟨has, attached, _⟩ := detach_eq_ok.mp (alone_eq_ok.mp ok).left
    exact ⟨has, attached⟩
  case appendChild p child =>
    have ⟨attachable, _⟩ := appendChild_eq_ok.mp (alone_eq_ok.mp ok).left
    exact v.attachable_iff.mpr attachable
  case replaceChild p old new =>
    have ⟨has, attachable, mem, _⟩ := replaceChild_eq_ok.mp (alone_eq_ok.mp ok).left
    exact ⟨has, v.attachable_iff.mpr attachable, mem⟩
  case replaceWith old new =>
    have ⟨_, ok⟩ := replaceWith_eq_ok.mp (alone_eq_ok.mp ok).left
    have ⟨has, attachable, mem, _⟩ := replaceChild_eq_ok.mp ok
    exact ⟨has, v.attachable_iff.mpr attachable, mem⟩
  case detachChildren r => exact (detachChildren_ok ok).left

-- An edit goes through if it applies, and then changes the edges that it is about. Otherwise it
-- fails and changes nothing, in place as well.
theorem edit_exact (h : f.check = .ok ()) (e : Edit) :
    (e.Applies f → ∃ g, e.make f = .ok (g, e.handsOut f) ∧
      e.inPlace.run f = (.ok (e.handsOut f), g) ∧ e.Makes f g) ∧
    (¬e.Applies f → ∃ error, e.make f = .error error ∧ e.inPlace.run f = (.error error, f)) ∧
    ∀ old new, e = replaceWith old new → f.parent old ≠ none →
      e.make f = (replaceChild (f.parent old) old new).make f := by
  have v := valid_of_check h
  have settles := e.settles f
  refine ⟨?made, ?failed, ?replaced⟩
  case made =>
    intro applies
    have ⟨g, ok, makes⟩ := make_of_applies v applies
    exact ⟨g, ok, by rw [settles, ok], makes⟩
  case failed =>
    intro applies
    cases made : e.make f
    case ok made' => exact absurd (applies_of_make v made) applies
    case error error => exact ⟨error, rfl, by rw [settles, made]⟩
  case replaced =>
    intro old new e attached
    simp [e, make, Forest.replaceWith, attached]

-- A script with two statements, and an identifier that is nowhere.
def spare : Forest where
  nodes := #[
    { kind := .script, data := some 0, children := [some 1, some 2] },
    { kind := .expressionStatement, parent := some 0 },
    { kind := .expressionStatement, parent := some 0 },
    { kind := .identifier, data := some 0 }]
  texts := #["A"]
  files := #["a.js"]

-- The identifier can take the place of the first statement. The script cannot go below the second
-- statement, which is a part of it.
theorem edit_exact_spare : spare.check = .ok () ∧
    (∃ g, spare.replaceWith (some 1) (some 3) = .ok g ∧
      g.children (some 0) = [some 3, some 2] ∧ g.parent (some 1) = none) ∧
    (appendChild (some 2) (some 0)).inPlace.run spare = (.error (.cycle (some 0)), spare) := by
  have ok : spare.check = .ok () := (check_eq_checkChains _).trans rfl
  refine ⟨ok, ?replaced, ?refused⟩
  case replaced =>
    have apart : ¬spare.Contains (some 3) (some 0) := by
      rw [← (valid_of_check ok).isWithin_iff (by simp)]
      decide
    have applies : (replaceWith (some 1) (some 3)).Applies spare :=
      ⟨rfl, ⟨rfl, rfl, rfl, apart⟩, by decide⟩
    obtain ⟨g, made, -, makes⟩ := (edit_exact ok (replaceWith (some 1) (some 3))).left applies
    refine ⟨g, (alone_eq_ok.mp made).left, ?_, ?_⟩
    · rw [Forest.children, makes.node]
      rfl
    · rw [Forest.parent, makes.node]
      rfl
  case refused =>
    have out : ¬(appendChild (some 2) (some 0)).Applies spare := fun a =>
      a.apart <| .up .refl
    have fails : (appendChild (some 2) (some 0)).make spare = .error (.cycle (some 0)) := rfl
    obtain ⟨error, made, run⟩ := (edit_exact ok (appendChild (some 2) (some 0))).right.left out
    cases fails.symm.trans made
    exact run

end Edit

end ClassLift
