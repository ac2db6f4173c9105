import ClassLift.Proofs.Convert.Names
import ClassLift.Proofs.Tree.Shape
import ClassLift.Proofs.Tree.Path

/-!
A statement that assigns a member: what is below it. If its target names a class, the target has
nothing below it that could be worth keeping.
-/

namespace ClassLift

-- The kinds of the nodes of a path such as `this.a.b`.
def Kind.isPathPart : Kind → Bool
  | identifier | thisKeyword | propertyAccess => true
  | _ => false

namespace Forest

variable {f : Forest} {r c x y : Ref} {k : Kind} {depth : Nat}

theorem eq_of_contains_leaf (v : f.Valid) (hr : r ≠ none) (hc : f.children r = [])
    (h : f.Contains r x) : x = r := by
  by_contra hn
  obtain ⟨c, hm, -⟩ := v.exists_child hr h hn
  simp [hc] at hm

-- All that is below a node is part of a path.
def IsPath (f : Forest) (r : Ref) : Prop :=
  ∀ x, f.Contains r x → (f.kind? x).any Kind.isPathPart

theorem IsPath.kind?_eq (h : f.IsPath r) (hx : f.Contains r x) :
    ∃ k, f.kind? x = some k ∧ k.isPathPart :=
  (Option.any_eq_true _ _).mp (h x hx)

theorem IsPath.leaf (v : f.Valid) (s : f.Formed r) (hk : f.kind? r = some k) (hl : k.isLeaf)
    (hp : k.isPathPart) : f.IsPath r := by
  intro x hx
  have hc := children_leaf (s r .refl) hk hl
  rw [eq_of_contains_leaf v (has_of_kind? hk).ne_none hc hx, hk]
  exact hp

theorem IsPath.access (v : f.Valid) (s : f.Formed r) (hk : f.kind? r = some .propertyAccess)
    (h : f.IsPath (f.first r)) : f.IsPath r := by
  intro x hx
  obtain ⟨object, property, hc, hp⟩ := ClassLift.Forest.children_propertyAccess (s r .refl) hk
  have first : f.first r = object := by simp [first, child, hc]
  have member : property ∈ f.children r := by simp [hc]
  by_cases hn : x = r
  case pos => simp [hn, hk, Kind.isPathPart]
  case neg =>
    obtain ⟨c, hm, hcx⟩ := v.exists_child (has_of_kind? hk).ne_none hx hn
    rw [hc, List.mem_cons, List.mem_singleton] at hm
    rcases hm with rfl | rfl
    · exact h x (first.symm ▸ hcx)
    · exact IsPath.leaf v (s.below (v.contains_child member)) hp rfl rfl x hcx

theorem isPath_of_pathWithin (v : f.Valid) (s : f.Formed r) {path : List String}
    (h : f.pathWithin depth r = some path) : f.IsPath r := by
  induction depth generalizing r path
  case zero => cases h
  case succ depth ih =>
    rw [pathWithin] at h
    split at h
    case h_1 hk => exact .leaf v s hk rfl rfl
    case h_2 hk => exact .leaf v s hk rfl rfl
    case h_3 hk =>
      obtain ⟨_, -, h⟩ := Option.bind_eq_some_iff.mp h
      obtain ⟨_, h, -⟩ := Option.bind_eq_some_iff.mp h
      refine .access v s hk (ih (s.below ?_) h)
      refine v.contains_child <| child_mem fun hn => ?_
      rw [first, hn, pathWithin_none] at h
      cases h
    case h_4 => cases h

theorem isPath_of_qualifiedName? (v : f.Valid) (s : f.Formed r) {name : String}
    (h : f.qualifiedName? r = some name) : f.IsPath r := by
  obtain ⟨_, h, -⟩ := Option.map_eq_some_iff.mp h
  exact isPath_of_pathWithin v s h

theorem Formed.first (s : f.Formed r) (v : f.Valid) (h : f.first r ≠ none) :
    f.Formed (f.first r) :=
  s.below (v.contains_child (child_mem h))

theorem qualifiedName?_none : f.qualifiedName? none = none := by
  simp [qualifiedName?, path?]

theorem isPath_of_prototypeWithin (v : f.Valid) (s : f.Formed r) {access : Ref} {name : String}
    (h : MemberAssignment.prototypeWithin f depth r = some access)
    (hn : f.qualifiedName? (f.first access) = some name) : f.IsPath r := by
  induction depth generalizing r
  case zero => cases h
  case succ depth ih =>
    rw [MemberAssignment.prototypeWithin] at h
    split at h
    case isFalse => cases h
    case isTrue hk =>
      have hk := isKind_iff.mp hk
      split at h
      case isTrue =>
        cases h
        refine .access v s hk (isPath_of_qualifiedName? v (s.first v fun e => ?_) hn)
        rw [e, qualifiedName?_none] at hn
        cases hn
      case isFalse =>
        refine .access v s hk (ih (s.first v fun e => ?_) h)
        rw [e, prototypeWithin_none] at h
        cases h

-- A target that names a class is a path.
theorem isPath_of_className? (v : f.Valid) {m : MemberAssignment} (s : f.Formed m.target)
    (hk : f.kind? m.target = some .propertyAccess) {name : String}
    (h : m.className? f = .ok (some name)) : f.IsPath m.target := by
  unfold MemberAssignment.className? at h
  split at h
  case isTrue =>
    have h := Except.ok.inj h
    refine .access v s hk (isPath_of_qualifiedName? v (s.first v fun e => ?_) h)
    rw [e, qualifiedName?_none] at h
    cases h
  case isFalse =>
    split at h
    case h_1 access ha => exact isPath_of_prototypeWithin v s ha (Except.ok.inj h)
    case h_2 => cases h

-- What a statement that assigns a member has below it, in a forest that is on its way from `f`.
structure Site (f g : Forest) (m : MemberAssignment) : Prop where
  view       : m.IsView g
  statement  : g.children m.statement = [m.assignment]
  assignment : g.children m.assignment = [m.target, m.value]
  path       : f.IsPath m.target
  target     : ∀ x, g.Contains m.target x ↔ f.Contains m.target x

namespace Site

variable {g : Forest} {m : MemberAssignment} (s : f.Site g m) (v : g.Valid)
include s v

theorem contains_assignment : g.Contains m.statement m.assignment :=
  v.contains_child <| by simp [s.statement]

theorem contains_target : g.Contains m.statement m.target :=
  (s.contains_assignment v).trans <| v.contains_child <| by simp [s.assignment]

theorem contains_value : g.Contains m.statement m.value :=
  (s.contains_assignment v).trans <| v.contains_child <| by simp [s.assignment]

theorem cases_below (h : g.Contains m.statement x) :
    x = m.statement ∨ x = m.assignment ∨ g.Contains m.target x ∨ g.Contains m.value x := by
  have hs := (has_of_kind? s.view.statement).ne_none
  have ha := (has_of_kind? s.view.assignment.right).ne_none
  by_cases hn : x = m.statement
  case pos => exact .inl hn
  case neg =>
    obtain ⟨c, hc, h⟩ := v.exists_child hs h hn
    rw [s.statement, List.mem_singleton] at hc
    subst hc
    by_cases hn : x = m.assignment
    case pos => exact .inr (.inl hn)
    case neg =>
      obtain ⟨c, hc, h⟩ := v.exists_child ha h hn
      rw [s.assignment, List.mem_cons, List.mem_singleton] at hc
      rcases hc with rfl | rfl
      · exact .inr (.inr (.inl h))
      · exact .inr (.inr (.inr h))

-- The function has nothing in common with the rest of the statement.
theorem apart (h : g.Contains m.value x) :
    x ≠ m.statement ∧ x ≠ m.assignment ∧ ¬g.Contains m.target x := by
  have value : m.value ∈ g.children m.assignment := by simp [s.assignment]
  have ha := (has_of_kind? s.view.assignment.right).ne_none
  refine ⟨?_, ?_, fun ht => ?_⟩
  · rintro rfl
    exact v.not_contains_of_child value <| h.trans (s.contains_assignment v)
  · rintro rfl
    exact v.not_contains_of_child value h
  · have e := v.child_unique (p := m.assignment) (by simp [s.assignment]) value ht h
    have := s.assignment ▸ v.nodup m.assignment
    simp [e] at this

-- A class that is not in the function is nowhere in the statement.
theorem not_contains_class (ext : g.Extends f) (hk : g.kind? x = some .classDefinition)
    (h : ¬g.Contains m.value x) : ¬g.Contains m.statement x := by
  intro hx
  rcases s.cases_below v hx with rfl | rfl | hx | hx
  · cases hk.symm.trans s.view.statement
  · cases hk.symm.trans s.view.assignment.right
  · obtain ⟨k, hk', hp⟩ := s.path.kind?_eq ((s.target x).mp hx)
    cases hk.symm.trans <| (ext.kind? (has_of_kind? hk')).trans hk'
    cases hp
  · exact h hx

theorem not_contains_members (ext : g.Extends f) (hk : g.kind? x = some .classDefinition)
    (h : ¬g.Contains m.value x) (hm : g.kind? (g.members x) = some .classMembers) :
    ¬g.Contains m.statement (g.members x) := by
  intro hc
  rcases hc.cases_up with e | hc
  · cases hm.symm.trans (e ▸ s.view.statement)
  · rw [v.parent_eq (members_mem (has_of_kind? hm).ne_none)] at hc
    exact s.not_contains_class v ext hk h hc

end Site

end Forest

open Forest

variable {f : Forest} {done : List Ref} {log : Log} {w : Workspace} {m : MemberAssignment}

theorem IsPath.children_eq {r x : Ref} (p : Progress f done log w) (v : f.Valid) (h : f.IsPath r)
    (hx : f.Contains r x) : f.children x = w.forest.children x := by
  have plain {y : Ref} (hy : f.Contains r y) : ∃ k, f.kind? y = some k ∧
      k ∉ [Kind.function, .classMembers, .script, .assignment] := by
    obtain ⟨k, hk, hp⟩ := h.kind?_eq hy
    exact ⟨k, hk, by cases k <;> simp [Kind.isPathPart] at hp ⊢⟩
  obtain ⟨k, hk, hn⟩ := plain hx
  rw [p.children_of_kind v hk hn]
  refine (List.map_id _).symm.trans <| List.map_congr_left fun c hc => ?_
  obtain ⟨k, hk, hn⟩ := plain (hx.trans <| v.contains_child hc)
  exact (p.image_eq_self hk (List.ne_of_not_mem_cons hn)).symm

-- A statement that has not been merged is as it was at the start, apart from what its function has
-- below it.
theorem Progress.site {name : String} (p : Progress f done log w) (v : f.Valid)
    (s : f.Formed m.statement) (i : m.IsView f) (j : m.IsView w.forest)
    (hr : m.statement ∉ log.statements) (hu : log.cls? m.value = none) (h : m.className? w.forest = .ok (some name)) :
    f.Site w.forest m := by
  obtain ⟨assignment, hs⟩ := children_expressionStatement (s _ .refl) i.statement
  have ea : m.assignment = assignment := i.assignment.left.trans (by simp [first, child, hs])
  subst ea
  have hc := v.contains_child i.assignment_mem
  obtain ⟨target, value, ha⟩ := children_assignment (s _ hc) i.assignment.right
  have et : m.target = target := i.target.left.trans (by simp [first, child, ha])
  have ev : m.value = value := i.value.trans (by simp [second, child, ha])
  subst et ev
  have sub := v.contains_child i.target_mem
  have path : f.IsPath m.target := by
    rw [p.className?_eq v i.target.right] at h
    exact isPath_of_className? v ((s.below hc).below sub) i.target.right h
  have hp : f.parent m.assignment = m.statement := v.parent_eq i.assignment_mem
  refine ⟨j, ?statement, ?assignment, path, fun x => ?target⟩
  case statement =>
    rw [p.children_of_kind v i.statement (by simp), hs]
    simp [p.image_eq_self i.assignment.right]
  case assignment =>
    rw [p.children_image v (has_of_kind? i.assignment.right)
      (p.cls?_none_of_kind i.assignment.right (by simp)) (by simp [i.assignment.right])
      (by simp [i.assignment.right]) (fun _ => hp ▸ hr), ha]
    simp [p.image_eq_self i.target.right, Log.image_of_none hu]
  case target =>
    exact (p.valid.contains_iff_of_children v (has_of_kind? i.target.right).ne_none fun y hy =>
      IsPath.children_eq p v path hy).symm

end ClassLift
