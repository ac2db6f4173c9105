import ClassLift.Proofs.Tree.Growth

/-!
Edits of a valid forest: when they succeed, which edges they change, and that they keep the forest
valid.
-/

namespace ClassLift.Forest

variable {f g : Forest} {r r' p old new child : Ref} {cs : List Ref}

-- Only edges differ.
structure Rewires (g f : Forest) : Prop where
  label : ∀ r, g.label? r = f.label? r
  texts : g.texts = f.texts
  files : g.files = f.files
  docs  : g.docs = f.docs

theorem Rewires.extends (e : g.Rewires f) : g.Extends f where
  label _ := e.label _
  texts   := ⟨#[], by simp [e.texts]⟩
  files   := e.files
  docs    := e.docs

theorem Rewires.has (e : g.Rewires f) : g.Has r ↔ f.Has r := by
  rw [has_iff_label?, has_iff_label?, e.label]

theorem Valid.rewire (v : f.Valid) (e : g.Rewires f)
    (mem : ∀ {r p}, r ∈ g.children p ↔ g.parent r = p ∧ p ≠ none)
    (nodup : ∀ p, (g.children p).Nodup) (rooted : ∀ r, g.Rooted r) : g.Valid where
  mem_children := mem
  nodup := nodup
  rooted := rooted
  data hl hd hs := v.data (e.label _ ▸ hl) hd (by simpa [poolSize?, e.texts, e.files] using hs)
  doc hd := by
    rw [e.docs]
    exact v.doc (by rwa [docIndex?_eq_label?, e.label, ← docIndex?_eq_label?] at hd)

/- When an edit succeeds -/

section Outcomes

variable {ε α β : Type} {x : Except ε α} {k : α → Except ε β} {e : ε} {b : β} {c : Prop}

theorem bind_eq_ok : x >>= k = .ok b ↔ ∃ a, x = .ok a ∧ k a = .ok b := by
  cases x <;> simp [bind, Except.bind]

theorem throw_bind : (throw e : Except ε α) >>= k = throw e := rfl

theorem unless_throw_eq_ok [Decidable c] {y : Except ε β} :
    (if c then throw e else y) = .ok b ↔ ¬c ∧ y = .ok b := by
  split <;> simp_all [throw, throwThe, MonadExceptOf.throw]

end Outcomes

theorem require_eq_ok {u : Unit} : f.require r = .ok u ↔ f.Has r := by
  unfold require Has
  split <;> simp_all

theorem expectKind_eq_ok {k : Kind} {u : Unit} : f.expectKind r k = .ok u ↔ f.kind? r = some k := by
  unfold expectKind
  split
  · simp_all
  · split <;> simp_all

theorem requireAttachable_eq_ok {u : Unit} : f.requireAttachable p child = .ok u ↔
    f.Has p ∧ f.Has child ∧ f.parent child = none ∧ f.isWithin p child = false := by
  simp only [requireAttachable, bind_eq_ok, throw_bind, unless_throw_eq_ok, require_eq_ok]
  simp [pure, Except.pure]

theorem detach_eq_ok : f.detach r = .ok g ↔
    f.Has r ∧ f.parent r ≠ none ∧ f.Has (f.parent r) ∧ r ∈ f.children (f.parent r) ∧
      g = (f.setChildren (f.parent r) ((f.children (f.parent r)).erase r)).setParent r none := by
  simp only [detach, bind_eq_ok, throw_bind, unless_throw_eq_ok, require_eq_ok]
  simp [pure, Except.pure, eq_comm]

theorem appendChild_eq_ok : f.appendChild p child = .ok g ↔
    f.requireAttachable p child = .ok () ∧
      g = (f.setChildren p (f.children p ++ [child])).setParent child p := by
  simp only [appendChild, bind_eq_ok, Unique.exists_iff]
  simp [pure, Except.pure, eq_comm]

theorem replaceChild_eq_ok : f.replaceChild p old new = .ok g ↔
    f.Has old ∧ f.requireAttachable p new = .ok () ∧ old ∈ f.children p ∧
      g = ((f.setChildren p ((f.children p).replace old new)).setParent old none).setParent new p := by
  simp only [replaceChild, bind_eq_ok, throw_bind, unless_throw_eq_ok, require_eq_ok,
    Unique.exists_iff]
  simp [pure, Except.pure, eq_comm]

theorem replaceWith_eq_ok : f.replaceWith old new = .ok g ↔
    f.parent old ≠ none ∧ f.replaceChild (f.parent old) old new = .ok g := by
  unfold replaceWith
  by_cases h : f.parent old = none <;> simp [h]

theorem requireAttachable_ok (v : f.Valid) (hp : f.Has p) (hc : f.Has child)
    (free : f.parent child = none) (apart : ¬f.Contains child p) :
    f.requireAttachable p child = .ok () := by
  refine requireAttachable_eq_ok.mpr ⟨hp, hc, free, ?_⟩
  rwa [Bool.eq_false_iff, ne_eq, v.isWithin_iff hc.ne_none]

theorem exists_detach (v : f.Valid) (attached : f.parent r ≠ none) : ∃ g, f.detach r = .ok g :=
  ⟨_, detach_eq_ok.mpr
    ⟨has_of_parent_ne_none attached, attached, v.has_parent attached, v.mem_parent attached, rfl⟩⟩

theorem detach_lone (hr : f.Has r) (lone : f.parent r = none) : f.detach r = .error (.noParent r) := by
  rw [detach, require_eq_ok (u := ()) |>.mpr hr, if_pos lone]
  rfl

theorem detach_none : f.detach none = .error (.invalidIndex none) := rfl

theorem exists_appendChild (v : f.Valid) (hp : f.Has p) (hc : f.Has child)
    (free : f.parent child = none) (apart : ¬f.Contains child p) :
    ∃ g, f.appendChild p child = .ok g :=
  ⟨_, appendChild_eq_ok.mpr ⟨requireAttachable_ok v hp hc free apart, rfl⟩⟩

theorem exists_replaceWith (v : f.Valid) (attached : f.parent old ≠ none) (hn : f.Has new)
    (free : f.parent new = none) (apart : ¬f.Contains new (f.parent old)) :
    ∃ g, f.replaceWith old new = .ok g :=
  ⟨_, replaceWith_eq_ok.mpr ⟨attached, replaceChild_eq_ok.mpr ⟨has_of_parent_ne_none attached,
    requireAttachable_ok v (v.has_parent attached) hn free apart, v.mem_parent attached, rfl⟩⟩⟩

/- Taking nodes out of a tree -/

structure Detaches (f g : Forest) (r : Ref) : Prop where
  attached : f.parent r ≠ none
  rewires  : g.Rewires f
  children : ∀ p, g.children p = (f.children p).erase r
  parent   : ∀ r', g.parent r' = if r' = r then none else f.parent r'

theorem detaches_of_ok (v : f.Valid) (h : f.detach r = .ok g) : f.Detaches g r := by
  obtain ⟨hr, hp, hhp, hm, rfl⟩ := detach_eq_ok.mp h
  refine ⟨hp, ⟨?label, ?texts, ?files, ?docs⟩, fun p => ?children, fun r' => ?parent⟩
  case label | texts | files | docs => simp
  case children =>
    rw [children_setParent, children_setChildren hhp]
    split
    case isTrue e => rw [e]
    case isFalse e =>
      rw [List.erase_of_not_mem]
      exact fun hp => e (v.parent_eq hp).symm
  case parent => simp [parent_setParent (has_setChildren.mpr hr)]

theorem Detaches.valid (d : f.Detaches g r) (v : f.Valid) : g.Valid := by
  refine v.rewire d.rewires (fun {c p} => ?mem) (fun p => ?nodup) fun c => ?rooted
  case mem =>
    rw [d.children, d.parent, (v.nodup p).mem_erase_iff, v.mem_children]
    by_cases hc : c = r
    case pos => simp [hc, eq_comm]
    case neg => simp [hc]
  case nodup => exact d.children p ▸ (v.nodup p).erase r
  case rooted =>
    refine (v.rooted c).transfer fun x _ _ => ?_
    rw [d.parent]
    split
    · exact .inl rooted_none
    · exact .inr rfl

theorem Detaches.contains (d : f.Detaches g r) {a x : Ref} (ha : a ≠ none) (h : g.Contains a x) :
    f.Contains a x := by
  induction h
  case refl => exact .refl
  case up x h ih =>
    rw [d.parent] at h ih
    split at ih
    case isTrue => exact absurd (Contains.eq_none (by simpa [*] using h)) ha
    case isFalse => exact .up ih

theorem detachChildren_ok {fcs : Forest × List Ref} (h : f.detachChildren r = .ok fcs) :
    f.Has r ∧ fcs = ((f.setChildren r []).setParents (f.children r) none, f.children r) := by
  simp only [detachChildren, bind_eq_ok, require_eq_ok] at h
  simpa [pure, Except.pure, eq_comm] using h

theorem exists_detachChildren (hr : f.Has r) : ∃ g, f.detachChildren r = .ok (g, f.children r) := by
  rw [detachChildren, require_eq_ok (u := ()) |>.mpr hr]
  exact ⟨_, rfl⟩

structure Empties (f g : Forest) (r : Ref) : Prop where
  rewires  : g.Rewires f
  children : ∀ p, g.children p = if p = r then [] else f.children p
  parent   : ∀ r', g.parent r' = if r' ∈ f.children r then none else f.parent r'

theorem empties_of_ok (v : f.Valid) (h : f.detachChildren r = .ok (g, cs)) :
    cs = f.children r ∧ f.Empties g r := by
  obtain ⟨hr, e⟩ := detachChildren_ok h
  cases e
  refine ⟨rfl, ⟨?label, ?texts, ?files, ?docs⟩, fun p => ?children, fun r' => ?parent⟩
  case label | texts | files | docs => simp
  case children => rw [children_setParents, children_setChildren hr]
  case parent =>
    rw [parent_setParents fun c hc => has_setChildren.mpr (v.has_child hc), parent_setChildren]

theorem Empties.valid (d : f.Empties g r) (v : f.Valid) : g.Valid := by
  refine v.rewire d.rewires (fun {c p} => ?mem) (fun p => ?nodup) fun c => ?rooted
  case mem =>
    rw [d.children, d.parent]
    by_cases hp : p = r <;> by_cases hc : c ∈ f.children r
    · simp [hp, hc, eq_comm]
    · simp [hp, hc, ← v.mem_children]
    · have := v.parent_eq hc
      simp [hp, hc, v.mem_children, this, Ne.symm hp, eq_comm]
    · simp [hp, hc, v.mem_children]
  case nodup =>
    rw [d.children]
    split
    · exact List.nodup_nil
    · exact v.nodup p
  case rooted =>
    refine (v.rooted c).transfer fun x _ _ => ?_
    rw [d.parent]
    split
    · exact .inl rooted_none
    · exact .inr rfl

/- Putting a tree below a node -/

structure Appends (f g : Forest) (p child : Ref) : Prop where
  has      : f.Has p
  free     : f.parent child = none
  apart    : ¬f.Contains child p
  rewires  : g.Rewires f
  children : ∀ q, g.children q = if q = p then f.children p ++ [child] else f.children q
  parent   : ∀ r, g.parent r = if r = child then p else f.parent r

theorem appends_of_ok (v : f.Valid) (h : f.appendChild p child = .ok g) : f.Appends g p child := by
  obtain ⟨ha, rfl⟩ := appendChild_eq_ok.mp h
  obtain ⟨hp, hc, hfree, hw⟩ := requireAttachable_eq_ok.mp ha
  refine ⟨hp, hfree, ?apart, ⟨?label, ?texts, ?files, ?docs⟩, fun q => ?children, fun r => ?parent⟩
  case label | texts | files | docs => simp
  case apart => rw [← v.isWithin_iff hc.ne_none, hw]; simp
  case children => rw [children_setParent, children_setChildren hp]
  case parent => rw [parent_setParent (has_setChildren.mpr hc), parent_setChildren]

theorem Appends.valid (d : f.Appends g p child) (v : f.Valid) : g.Valid := by
  have hnot (q : Ref) : child ∉ f.children q := fun hm =>
    (v.mem_children.mp hm).right <| v.parent_eq hm ▸ d.free
  refine v.rewire d.rewires (fun {c q} => ?mem) (fun q => ?nodup) ?rooted
  case mem =>
    rw [d.children, d.parent]
    have hp := d.has.ne_none
    by_cases hq : q = p <;> by_cases hc : c = child
    · simp [hq, hc, hp]
    · simp [hq, hc, v.mem_children]
    · simp [hq, hc, hnot, Ne.symm hq]
    · simp [hq, hc, v.mem_children]
  case nodup =>
    rw [d.children]
    split
    · simpa [List.nodup_append, v.nodup p] using fun c hc (e : c = child) => hnot p (e ▸ hc)
    · exact v.nodup q
  case rooted =>
    refine rooted_of_attach [child] p v.rooted ?_ ?_ ?_
    · simpa using d.apart
    · simp [d.parent]
    · intro c hc
      exact .inr <| by rw [d.parent, if_neg (by simpa using hc)]

structure Replaces (f g : Forest) (p old new : Ref) : Prop where
  mem      : old ∈ f.children p
  free     : f.parent new = none
  apart    : ¬f.Contains new p
  rewires  : g.Rewires f
  children : ∀ q, g.children q = (f.children q).replace old new
  parent   : ∀ r, g.parent r = if r = new then p else if r = old then none else f.parent r

theorem replaces_of_ok (v : f.Valid) (h : f.replaceChild p old new = .ok g) :
    f.Replaces g p old new := by
  obtain ⟨ho, ha, hm, rfl⟩ := replaceChild_eq_ok.mp h
  obtain ⟨hp, hn, hfree, hw⟩ := requireAttachable_eq_ok.mp ha
  refine ⟨hm, hfree, ?apart, ⟨?label, ?texts, ?files, ?docs⟩, fun q => ?children, fun r => ?parent⟩
  case label | texts | files | docs => simp
  case apart => rw [← v.isWithin_iff hn.ne_none, hw]; simp
  case children =>
    rw [children_setParent, children_setParent, children_setChildren hp]
    split
    case isTrue e => rw [e]
    case isFalse e =>
      rw [List.replace_of_not_mem]
      exact fun hq => e <| (v.parent_eq hq).symm.trans (v.parent_eq hm)
  case parent =>
    rw [parent_setParent (has_setParent.mpr (has_setChildren.mpr hn)),
      parent_setParent (has_setChildren.mpr ho), parent_setChildren]

-- In a list without repetition the first occurrence is the only one.
theorem replace_eq_map (h : cs.Nodup) :
    cs.replace old new = cs.map fun c => if c = old then new else c := by
  induction cs
  case nil => rfl
  case cons c cs ih =>
    have ⟨hc, hcs⟩ := List.nodup_cons.mp h
    by_cases e : c = old
    case pos =>
      subst e
      rw [List.replace_cons_self, List.map_cons, ← ih hcs, List.replace_of_not_mem hc]
      simp
    case neg => simp [List.replace_cons, e, ih hcs, beq_eq_false_iff_ne.mpr (Ne.symm e)]

theorem Replaces.children_map (d : f.Replaces g p old new) (v : f.Valid) (q : Ref) :
    g.children q = (f.children q).map fun c => if c = old then new else c := by
  rw [d.children, replace_eq_map (v.nodup q)]

theorem Replaces.valid (d : f.Replaces g p old new) (v : f.Valid) : g.Valid := by
  have ⟨hold, hp⟩ := v.mem_children.mp d.mem
  have hnew (q : Ref) : new ∉ f.children q := fun hm =>
    (v.mem_children.mp hm).right <| v.parent_eq hm ▸ d.free
  refine v.rewire d.rewires (fun {c q} => ?mem) (fun q => ?nodup) ?rooted
  case mem =>
    rw [d.children_map v, d.parent, List.mem_map]
    by_cases hcn : c = new
    case pos =>
      -- The new child stands only where the old one stood.
      subst hcn
      rw [if_pos rfl]
      constructor
      · rintro ⟨x, hx, e⟩
        split at e
        case isTrue ho => exact ⟨by rw [← hold, ← ho, v.parent_eq hx], (v.mem_children.mp hx).right⟩
        case isFalse => exact absurd (e ▸ hx) (hnew q)
      · rintro ⟨rfl, -⟩
        exact ⟨old, d.mem, if_pos rfl⟩
    case neg =>
      rw [if_neg hcn]
      by_cases hco : c = old
      case pos =>
        rw [if_pos hco]
        constructor
        · rintro ⟨x, _, e⟩
          split at e
          case isTrue => exact absurd e.symm hcn
          case isFalse ho => exact absurd (e.trans hco) ho
        · exact fun ⟨hq, hn⟩ => absurd hq.symm hn
      case neg =>
        rw [if_neg hco, ← v.mem_children]
        constructor
        · rintro ⟨x, hx, e⟩
          split at e
          case isTrue => exact absurd e.symm hcn
          case isFalse => exact e ▸ hx
        · exact fun hm => ⟨c, hm, if_neg hco⟩
  case nodup =>
    rw [d.children_map v]
    refine (v.nodup q).map_on fun x hx y hy e => ?_
    split at e <;> split at e
    · simp_all
    · exact absurd (e ▸ hy) (hnew q)
    · exact absurd (e ▸ hx) (hnew q)
    · exact e
  case rooted =>
    refine rooted_of_attach [new] p v.rooted ?_ ?_ ?_
    · simpa using d.apart
    · simp [d.parent]
    · intro c hc
      rw [d.parent, if_neg (by simpa using hc)]
      split
      · exact .inl rfl
      · exact .inr rfl

end ClassLift.Forest
