import ClassLift.Proofs.Tree.Valid

/-!
The nodes of a tree from the leaves up. In a valid forest this order has every node of the tree
once, and whatever lies below a node comes before it.
-/

namespace ClassLift.Forest

def postorderWithin (f : Forest) : Nat → Ref → List Ref
  | 0, _ => []
  | depth + 1, r => (f.children r).flatMap (f.postorderWithin depth) ++ [r]

-- The children of a node, each after all that lies below it, and last the node itself.
def postorder (f : Forest) (r : Ref) : List Ref :=
  f.postorderWithin (f.size + 1) r

variable {f : Forest} {r s x y c : Ref} {depth : Nat}

-- Every chain that ends at `r` is shorter than `depth`.
def Shallow (f : Forest) (depth : Nat) (r : Ref) : Prop :=
  ∀ n x, f.climb n x = r → n < depth

theorem Valid.shallow (v : f.Valid) (hr : r ≠ none) : f.Shallow (f.size + 1) r := by
  intro n x h
  by_contra hn
  exact hr <| h ▸ climb_of_le (v.climb_succ_size x) (Nat.le_of_not_lt hn)

namespace Shallow

theorem child (h : f.Shallow (depth + 1) r) (v : f.Valid) (hc : c ∈ f.children r) :
    f.Shallow depth c := by
  intro n x hx
  have := h (n + 1) x (by rw [climb_succ, hx, v.parent_eq hc])
  omega

theorem not_zero : ¬f.Shallow 0 r := fun h =>
  Nat.not_lt_zero _ <| h 0 r climb_zero

theorem mono {depth' : Nat} (h : f.Shallow depth r) (hd : depth ≤ depth') : f.Shallow depth' r :=
  fun n x hx => Nat.lt_of_lt_of_le (h n x hx) hd

end Shallow

theorem contains_of_mem_postorderWithin (v : f.Valid) (h : x ∈ f.postorderWithin depth r) :
    f.Contains r x := by
  induction depth generalizing r
  case zero => simp [postorderWithin] at h
  case succ depth ih =>
    simp only [postorderWithin, List.mem_append, List.mem_flatMap, List.mem_singleton] at h
    rcases h with ⟨c, hc, hx⟩ | rfl
    · exact (v.contains_child hc).trans (ih hx)
    · exact .refl

theorem mem_postorderWithin (v : f.Valid) (hd : f.Shallow depth r) (hr : r ≠ none)
    (h : f.Contains r x) : x ∈ f.postorderWithin depth r := by
  induction depth generalizing r
  case zero => exact absurd hd Shallow.not_zero
  case succ depth ih =>
    simp only [postorderWithin, List.mem_append, List.mem_flatMap, List.mem_singleton]
    by_cases hx : x = r
    case pos => exact .inr hx
    case neg =>
      obtain ⟨c, hc, hcx⟩ := v.exists_child hr h hx
      exact .inl ⟨c, hc, ih (hd.child v hc) (v.has_child hc).ne_none hcx⟩

-- Beyond the depth of the tree more depth makes no difference.
theorem postorderWithin_eq (v : f.Valid) {depth' : Nat} (h : f.Shallow depth r)
    (h' : f.Shallow depth' r) : f.postorderWithin depth r = f.postorderWithin depth' r := by
  induction depth generalizing depth' r
  case zero => exact absurd h Shallow.not_zero
  case succ depth ih =>
    cases depth'
    case zero => exact absurd h' Shallow.not_zero
    case succ depth' =>
      have same : ∀ c ∈ f.children r, f.postorderWithin depth c = f.postorderWithin depth' c :=
        fun c hc => ih (h.child v hc) (h'.child v hc)
      rw [postorderWithin, postorderWithin, List.flatMap_congr same]

-- Trees with the same children have the same order.
theorem postorderWithin_congr {g : Forest} (v : f.Valid)
    (same : ∀ x, f.Contains r x → g.children x = f.children x) :
    g.postorderWithin depth r = f.postorderWithin depth r := by
  induction depth generalizing r
  case zero => rfl
  case succ depth ih =>
    have below : ∀ c ∈ f.children r, g.postorderWithin depth c = f.postorderWithin depth c :=
      fun c hc => ih fun x hx => same x ((v.contains_child hc).trans hx)
    rw [postorderWithin, postorderWithin, same r .refl, List.flatMap_congr below]

theorem pairwise_postorderWithin (v : f.Valid) (hr : r ≠ none) :
    (f.postorderWithin depth r).Pairwise fun x y => ¬f.Contains x y := by
  induction depth generalizing r
  case zero => simp [postorderWithin]
  case succ depth ih =>
    rw [postorderWithin, List.pairwise_append, List.pairwise_flatMap]
    refine ⟨⟨fun c hc => ih (v.has_child hc).ne_none, ?apart⟩, by simp, ?last⟩
    case apart =>
      refine (v.nodup r).imp_of_mem fun {c d} hc hd hcd x hx y hy hxy => hcd ?_
      have hx := contains_of_mem_postorderWithin v hx
      have hy := contains_of_mem_postorderWithin v hy
      exact v.child_unique hc hd (hx.trans hxy) hy
    case last =>
      intro x hx y hy hxy
      obtain ⟨c, hc, hx⟩ := List.mem_flatMap.mp hx
      have hx := contains_of_mem_postorderWithin v hx
      cases List.mem_singleton.mp hy
      exact v.not_contains_of_child hc (hx.trans hxy)

-- A block of a list that leaves out an element lies on one side of it.
theorem subset_of_block {front block back before after : List Ref}
    (h : front ++ (block ++ back) = before ++ r :: after) (hr : r ∉ block) :
    block ⊆ before ∨ block ⊆ after := by
  rcases List.append_eq_append_iff.mp h with ⟨c, rfl, h₁⟩ | ⟨c, rfl, h₁⟩
  case inl =>
    left
    rcases List.append_eq_append_iff.mp h₁ with ⟨d, rfl, -⟩ | ⟨d, rfl, h₂⟩
    · simp
    · rcases List.cons_eq_append_iff.mp h₂ with ⟨rfl, -⟩ | ⟨d, rfl, -⟩
      · simp
      · simp at hr
  case inr =>
    rcases List.cons_eq_append_iff.mp h₁ with ⟨-, h₂⟩ | ⟨d, -, rfl⟩
    · rcases List.append_eq_cons_iff.mp h₂ with ⟨rfl, -⟩ | ⟨d, rfl, -⟩
      · simp
      · simp at hr
    · right
      simp

-- A selection from a list without repetitions is known by its elements.
theorem select_of_sublist {l k : List Ref} (n : l.Nodup) (h : k.Sublist l) :
    k = l.filter (· ∈ k) := by
  have all : k.filter (· ∈ k) = k := List.filter_eq_self.mpr fun x hx => decide_eq_true hx
  have sub := h.filter (· ∈ k)
  rw [all] at sub
  have perm : k.Perm (l.filter (· ∈ k)) := by
    refine (List.perm_ext_iff_of_nodup (n.sublist h) (n.filter _)).mpr fun x => ?_
    rw [List.mem_filter, decide_eq_true_iff, iff_and_self]
    exact fun hx => h.subset hx
  exact sub.eq_of_length perm.length_eq

theorem eq_of_sublist {l k k' : List Ref} (n : l.Nodup) (h : k.Sublist l) (h' : k'.Sublist l)
    (same : ∀ x, x ∈ k ↔ x ∈ k') : k = k' := by
  rw [select_of_sublist n h, select_of_sublist n h']
  exact List.filter_congr fun x _ => by simp [same]

-- What is not selected does not count if nothing comes of it.
theorem filterMap_of_sublist {α : Type} {l k : List Ref} {view : Ref → Option α} (n : l.Nodup)
    (h : k.Sublist l) (out : ∀ x ∈ l, x ∉ k → view x = none) : l.filterMap view = k.filterMap view := by
  rw [select_of_sublist n h, List.filterMap_filter]
  refine List.filterMap_congr fun x hx => ?_
  by_cases hk : x ∈ k
  case pos => simp [hk]
  case neg => simp [hk, out x hx hk]

namespace Valid

variable {before after : List Ref}

theorem mem_postorder (v : f.Valid) (hs : s ≠ none) : x ∈ f.postorder s ↔ f.Contains s x where
  mp  := contains_of_mem_postorderWithin v
  mpr := mem_postorderWithin v (v.shallow hs) hs

theorem postorder_eq (v : f.Valid) (hs : s ≠ none) :
    f.postorder s = (f.children s).flatMap f.postorder ++ [s] := by
  have shallow := v.shallow hs
  have same : ∀ c ∈ f.children s, f.postorderWithin f.size c = f.postorder c := fun c hc =>
    postorderWithin_eq v (shallow.child v hc) (v.shallow (v.has_child hc).ne_none)
  rw [postorder, postorderWithin, List.flatMap_congr same]

theorem self_mem_postorder (v : f.Valid) (hs : s ≠ none) : s ∈ f.postorder s :=
  (v.mem_postorder hs).mpr .refl

theorem children_sublist_postorder (v : f.Valid) (hs : s ≠ none) :
    (f.children s).Sublist (f.postorder s) := by
  have blocks : ∀ cs ⊆ f.children s, cs.Sublist (cs.flatMap f.postorder) := by
    intro cs h
    induction cs
    case nil => exact .slnil
    case cons c cs ih =>
      have ⟨hc, h⟩ := List.cons_subset.mp h
      have self := v.self_mem_postorder (v.has_child hc).ne_none
      exact (List.singleton_sublist.mpr self).append (ih h)
  rw [v.postorder_eq hs]
  exact (blocks _ (List.Subset.refl _)).trans (List.sublist_append_left ..)

theorem pairwise_postorder (v : f.Valid) (hs : s ≠ none) :
    (f.postorder s).Pairwise fun x y => ¬f.Contains x y :=
  pairwise_postorderWithin v hs

theorem nodup_postorder (v : f.Valid) (hs : s ≠ none) : (f.postorder s).Nodup :=
  (v.pairwise_postorder hs).imp fun {x y} h (e : x = y) => h (e ▸ .refl)

-- What lies below a node comes no later than the node.
theorem mem_before_of_contains (v : f.Valid) (hs : s ≠ none)
    (h : f.postorder s = before ++ r :: after) (hx : x ∈ before ++ [r]) (hxy : f.Contains x y) :
    y ∈ before ++ [r] := by
  have hp := h ▸ v.pairwise_postorder hs
  have hy : y ∈ before ++ r :: after := by
    have hx : x ∈ f.postorder s := by
      rw [h]
      simp only [List.mem_append, List.mem_cons] at hx ⊢
      tauto
    rw [← h, v.mem_postorder hs] at *
    exact hx.trans hxy
  rw [List.append_cons] at hp hy
  refine (List.mem_append.mp hy).resolve_right fun ha => ?_
  exact (List.pairwise_append.mp hp).right.right x hx y ha hxy

theorem child_mem_before (v : f.Valid) (hs : s ≠ none)
    (h : f.postorder s = before ++ r :: after) (hc : c ∈ f.children r) : c ∈ before := by
  have hm := v.mem_before_of_contains hs h (x := r) (by simp) (v.contains_child hc)
  have hn : c ≠ r := fun e => v.not_contains_of_child hc (e ▸ .refl)
  simpa [hn] using hm

theorem not_mem_before (v : f.Valid) (hs : s ≠ none)
    (h : f.postorder s = before ++ r :: after) : r ∉ before := by
  have := h ▸ v.nodup_postorder hs
  simp [List.nodup_append] at this
  exact fun hr => this.right.right r hr |>.left rfl

-- The nodes of a tree follow each other without any other between them.
theorem infix_postorder (v : f.Valid) (hs : s ≠ none) (h : f.Contains s x) :
    f.postorder x <:+: f.postorder s := by
  induction h
  case refl => exact List.infix_refl _
  case up x h ih =>
    have hp := h.ne_none hs
    refine .trans ?_ ih
    rw [v.postorder_eq hp]
    exact (List.infix_flatMap_of_mem (v.mem_parent hp) _).trans (List.prefix_append ..).isInfix

-- While the root of a tree is still to come and the next node is not in the tree, nothing of the
-- tree has come.
theorem not_contains_before (v : f.Valid) (hs : s ≠ none) {a : Ref}
    (h : f.postorder s = before ++ r :: after) (ha : f.Contains s a) (hb : a ∉ before)
    (hr : ¬f.Contains a r) (hx : x ∈ before) : ¬f.Contains a x := by
  intro hc
  have block {y : Ref} : y ∈ f.postorder a ↔ f.Contains a y := v.mem_postorder (ha.ne_none hs)
  obtain ⟨front, back, e⟩ := v.infix_postorder hs ha
  rw [List.append_assoc, h] at e
  have side := (subset_of_block e (block.not.mpr hr)).resolve_left fun sub =>
    hb <| sub <| block.mpr .refl
  have nodup := h ▸ v.nodup_postorder hs
  exact (List.nodup_append'.mp nodup).right.right hx (List.mem_cons_of_mem _ <| side <| block.mpr hc)

end Valid

end ClassLift.Forest
