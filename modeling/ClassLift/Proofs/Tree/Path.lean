import ClassLift.Proofs.Tree.Valid

/-!
Ways down a tree. In a valid forest there is a way down from one node to another exactly if the
parent links lead up again, and then there is only one.
-/

namespace ClassLift.Forest

-- Where a list of child positions leads to.
def follow (f : Forest) : Ref → List Nat → Ref
  | r, [] => r
  | r, i :: path => f.follow (f.child r i) path

def Reaches (f : Forest) (a r : Ref) : Prop :=
  ∃ path, f.follow a path = r

variable {f g : Forest} {a b r x : Ref} {path path' : List Nat} {i j : Nat}

theorem follow_append : f.follow a (path ++ path') = f.follow (f.follow a path) path' := by
  induction path generalizing a
  case nil => rfl
  case cons ih => exact ih

@[simp]
theorem follow_none : f.follow none path = none := by
  induction path
  case nil => rfl
  case cons ih => exact ih

theorem follow_ne_none (h : f.follow a path ≠ none) : a ≠ none := by
  rintro rfl
  exact h follow_none

theorem Reaches.refl : f.Reaches r r :=
  ⟨[], rfl⟩

theorem Reaches.trans (h₁ : f.Reaches a b) (h₂ : f.Reaches b r) : f.Reaches a r := by
  obtain ⟨path₁, rfl⟩ := h₁
  obtain ⟨path₂, rfl⟩ := h₂
  exact ⟨path₁ ++ path₂, follow_append⟩

theorem reaches_child (h : r ∈ f.children a) : f.Reaches a r := by
  obtain ⟨i, hi⟩ := List.mem_iff_getElem?.mp h
  exact ⟨[i], by simp [follow, child, hi]⟩

theorem child_inj (v : f.Valid) (hn : f.child r i ≠ none) (h : f.child r i = f.child r j) :
    i = j := by
  have at_position {i : Nat} (hn : f.child r i ≠ none) : (f.children r)[i]? = some (f.child r i) := by
    unfold child at hn ⊢
    cases hc : (f.children r)[i]? <;> simp_all
  have hi := at_position hn
  have hj := at_position (h ▸ hn)
  have hlt := (List.getElem?_eq_some_iff.mp hi).1
  exact (List.getElem?_inj hlt (v.nodup r)).mp (by rw [hi, hj, h])

namespace Valid

theorem contains_follow (v : f.Valid) (h : f.follow a path ≠ none) :
    f.Contains a (f.follow a path) := by
  induction path generalizing a
  case nil => exact .refl
  case cons i path ih =>
    exact (v.contains_child <| child_mem <| follow_ne_none h).trans (ih h)

theorem reaches_of_contains (v : f.Valid) (ha : a ≠ none) (h : f.Contains a r) : f.Reaches a r := by
  induction h
  case refl => exact .refl
  case up r h ih => exact ih.trans <| reaches_child <| v.mem_parent <| h.ne_none ha

theorem reaches_iff (v : f.Valid) (ha : a ≠ none) (hr : r ≠ none) :
    f.Reaches a r ↔ f.Contains a r where
  mp  := by
    rintro ⟨path, rfl⟩
    exact v.contains_follow hr
  mpr := v.reaches_of_contains ha

-- From one node to another there is at most one way down.
theorem follow_inj (v : f.Valid) (hn : f.follow a path ≠ none)
    (h : f.follow a path = f.follow a path') : path = path' := by
  -- No way leads from a child back to the node.
  have back {i : Nat} {path : List Nat} {a : Ref} (ha : a ≠ none)
      (h : f.follow (f.child a i) path = a) : False := by
    have hn : f.follow (f.child a i) path ≠ none := fun e => ha (h.symm.trans e)
    have hc := v.contains_follow hn
    rw [h] at hc
    exact v.not_contains_of_child (child_mem <| follow_ne_none hn) hc
  induction path generalizing a path'
  case nil =>
    cases path'
    case nil => rfl
    case cons => exact (back hn h.symm).elim
  case cons i path ih =>
    cases path'
    case nil => exact (back (fun e => hn (h.trans e)) h).elim
    case cons j path' =>
      have hn' : f.follow (f.child a j) path' ≠ none := fun e => hn (h.trans e)
      have e : f.child a i = f.child a j :=
        v.child_unique (child_mem <| follow_ne_none hn) (child_mem <| follow_ne_none hn')
          (v.contains_follow hn) (h ▸ v.contains_follow hn')
      have h : f.follow (f.child a i) path = f.follow (f.child a j) path' := h
      rw [← e] at h
      rw [child_inj v (follow_ne_none hn) e, ih hn h]

theorem exists_unique_path (v : f.Valid) (hr : r ≠ none) (h : f.Reaches a r) :
    ∃! path, f.follow a path = r := by
  obtain ⟨path, rfl⟩ := h
  exact ⟨path, rfl, fun path' e => v.follow_inj (e ▸ hr) e⟩

-- A tree whose nodes have the same children in another forest is the same tree there.
theorem contains_iff_of_children (v : f.Valid) (v' : g.Valid) (ha : a ≠ none)
    (h : ∀ y, g.Contains a y → g.children y = f.children y) :
    g.Contains a x ↔ f.Contains a x := by
  constructor <;> intro hx
  case mp =>
    induction hx
    case refl => exact .refl
    case up r hr ih =>
      have hm := v'.mem_parent (hr.ne_none ha)
      rw [h _ hr] at hm
      exact ih.child (v.parent_eq hm)
  case mpr =>
    induction hx
    case refl => exact .refl
    case up r hr ih =>
      have hm := v.mem_parent (hr.ne_none ha)
      rw [← h _ ih] at hm
      exact ih.child (v'.parent_eq hm)

end Valid

end ClassLift.Forest
