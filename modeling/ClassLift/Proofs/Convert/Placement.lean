import ClassLift.Proofs.Convert.Member
import ClassLift.Proofs.Convert.Promotion

/-!
Where a promotion and a merge leave the nodes: which nodes are above a node afterwards.
-/

namespace ClassLift.Forest

variable {f g : Forest} {a x c : Ref} {doc : Nat} {q : Promoted}

namespace Promotes

theorem ne_function (p : f.Promotes g doc q) (v : f.Valid)
    (h : c ∈ [q.name, q.parameters, q.body]) : c ≠ q.function := fun e =>
  v.not_contains_of_child (p.parts ▸ h) (e ▸ .refl)

theorem parent_function (p : f.Promotes g doc q) (v : f.Valid) : g.parent q.function = none := by
  by_contra h
  have hm := p.valid.mem_parent h
  by_cases hq : f.Has (g.parent q.function)
  case neg =>
    rcases p.of_mem_children hq hm with hm | hm
    · exact hm p.has_function
    · exact p.ne_function v hm rfl
  case pos =>
    rw [p.old hq] at hm
    split at hm
    case isTrue => cases hm
    case isFalse =>
      obtain ⟨c, -, e⟩ := List.mem_map.mp hm
      split at e
      case isTrue => exact p.new_cls.right (e ▸ p.has_function)
      case isFalse hc => exact hc e

theorem first_function (p : f.Promotes g doc q) : f.first q.function = q.name := by
  simp [first, child, p.parts]

-- The class has the own name of the function, if it is one.
theorem ownName?_filter (p : f.Promotes g doc q) (v : f.Valid) :
    (g.ownName? q.cls).filter (· ≠ "") = (f.ownName? q.function).filter (· ≠ "") := by
  obtain ⟨_, _, -, -, n⟩ := p.newClass
  have first : g.first q.cls = q.className := by simp [first, child, n.cls]
  rw [ownName?, ownName?, first, p.first_function]
  cases n.names
  case given named same =>
    have has : f.Has q.name := v.has_child (p := q.function) (by simp [p.parts])
    rw [same, p.ext.identifierText? v has]
  case missing unnamed _ kind _ =>
    have none : g.identifierText? q.className = none := by simp [identifierText?, isKind, kind]
    rw [none]
    refine (Option.filter_eq_none_iff.mpr fun text ht => ?_).symm
    simpa using fun hn => unnamed ⟨text, ht, hn⟩

-- A part that is kept hangs below the class, and only new nodes are between them.
theorem contains_part (p : f.Promotes g doc q) (ha : f.Has a)
    (h : c ∈ [q.parameters, q.body] ∨ c = q.name ∧ f.IsName q.name) (hc : c ≠ a) :
    g.Contains a c ↔ g.Contains a q.cls := by
  obtain ⟨_, _, -, -, n⟩ := p.newClass
  have up {r s : Ref} (hr : s ∈ g.children r) (hs : s ≠ a) : g.Contains a s ↔ g.Contains a r := by
    rw [contains_iff_of_ne hs, p.valid.parent_eq hr]
  have new {r : Ref} (hr : r ∈ [q.superclass, q.members, q.constructor, q.moved, q.noName]) : r ≠ a :=
    fun e => (n.new r (List.mem_cons_of_mem _ hr)).right (e ▸ ha)
  rcases h with h | ⟨rfl, h⟩
  case inl =>
    rw [up (r := q.moved) (by simp at h; rw [n.moved]; simp [h]) hc,
      up (r := q.constructor) (by simp [n.constructor]) (new (by simp)),
      up (r := q.members) (by simp [n.members]) (new (by simp)),
      up (r := q.cls) (by simp [n.cls]) (new (by simp))]
  case inr =>
    cases n.names
    case given e => exact up (by simp [n.cls, e]) hc
    case missing hn _ _ _ => exact absurd h hn

theorem contains_member (p : f.Promotes g doc q) : g.Contains q.cls q.moved := by
  obtain ⟨_, _, -, -, n⟩ := p.newClass
  have members : g.Contains q.cls q.members := p.valid.contains_child (by simp [n.cls])
  have constructor : g.Contains q.members q.constructor := p.valid.contains_child (by simp [n.members])
  have moved : g.Contains q.constructor q.moved := p.valid.contains_child (by simp [n.constructor])
  exact (members.trans constructor).trans moved

theorem contains_kept (p : f.Promotes g doc q)
    (h : c ∈ [q.parameters, q.body] ∨ c = q.name ∧ f.IsName q.name) : g.Contains q.cls c := by
  obtain ⟨_, _, -, -, n⟩ := p.newClass
  rcases h with h | ⟨rfl, h⟩
  case inl =>
    have part : c ∈ g.children q.moved := n.moved ▸ List.mem_cons_of_mem _ h
    exact p.contains_member.trans (p.valid.contains_child part)
  case inr =>
    cases n.names
    case given e => exact p.valid.contains_child (by simp [n.cls, e])
    case missing hn _ _ _ => exact absurd h hn

-- A name that is dropped hangs below nothing.
theorem parent_dropped (p : f.Promotes g doc q) (v : f.Valid) (h : ¬f.IsName q.name) :
    g.parent q.name = none := by
  obtain ⟨_, _, -, -, n⟩ := p.newClass
  have hN : f.Has q.name := v.has_child (p := q.function) (by simp [p.parts])
  have distinct : q.name ≠ q.parameters ∧ q.name ≠ q.body := by
    have := p.parts ▸ v.nodup q.function
    simp only [List.nodup_cons, List.mem_cons, List.not_mem_nil, or_false, not_or] at this
    exact this.left
  by_contra hp
  have hm := p.valid.mem_parent hp
  by_cases hq : f.Has (g.parent q.name)
  case pos =>
    rw [p.old hq] at hm
    split at hm
    case isTrue => cases hm
    case isFalse hne =>
      obtain ⟨c, hc, e⟩ := List.mem_map.mp hm
      split at e
      case isTrue => exact p.new_cls.right (e ▸ hN)
      case isFalse => exact hne <| (v.parent_eq (e ▸ hc)).symm.trans (p.parent_part v (by simp))
  case neg =>
    have new {r : Ref} (hr : r ∈ [q.superclass, q.members, q.constructor, q.moved, q.noName]) :
        r ≠ q.name :=
      fun e => (n.new r (List.mem_cons_of_mem _ hr)).right (e ▸ hN)
    by_cases hr : g.parent q.name ∈ [q.cls, q.members, q.constructor, q.moved]
    case neg => exact n.other _ hq hr _ hm hN
    case pos =>
      simp only [List.mem_cons, List.not_mem_nil, or_false] at hr
      rcases hr with e | e | e | e <;> rw [e] at hm
      case inl =>
        simp only [n.cls, List.mem_cons, List.not_mem_nil, or_false] at hm
        rcases hm with hm | hm | hm
        · cases n.names
          case given hn _ => exact h hn
          case missing _ hc _ _ => exact hc (hm ▸ hN)
        · exact new (by simp) hm.symm
        · exact new (by simp) hm.symm
      case inr.inl =>
        rw [n.members, List.mem_singleton] at hm
        exact new (by simp) hm.symm
      case inr.inr.inl =>
        rw [n.constructor, List.mem_singleton] at hm
        exact new (by simp) hm.symm
      case inr.inr.inr =>
        simp only [n.moved, List.mem_cons, List.not_mem_nil, or_false] at hm
        rcases hm with hm | hm | hm
        · exact new (by simp) hm.symm
        · exact distinct.left hm
        · exact distinct.right hm

-- The class takes the place of the function. All else that was below a node still is, except for a
-- name that is dropped.
theorem contains_iff (p : f.Promotes g doc q) (v : f.Valid) (ha : f.Has a) (hF : a ≠ q.function)
    (hN : ¬f.Contains q.name a) (hx : f.Has x) :
    g.Contains a (if x = q.function then q.cls else x) ↔
      f.Contains a x ∧ (f.IsName q.name ∨ ¬f.Contains q.name x) := by
  have name : q.name ∈ f.children q.function := by simp [p.parts]
  have above : ¬f.Contains q.name q.function := v.not_contains_of_child name
  induction v.rooted x using Rooted.downward
  case top => exact absurd rfl hx.ne_none
  case below x _ _ ih =>
    by_cases e : x = a
    case pos =>
      subst e
      simp [hF, hN, Contains.refl]
    case neg =>
      rw [contains_iff_of_ne (f := f) e]
      by_cases hxF : x = q.function
      case pos =>
        subst hxF
        have hK : q.cls ≠ a := fun e => p.new_cls.right (e ▸ ha)
        rw [if_pos rfl, contains_iff_of_ne hK, p.parent_cls v]
        have ih := ih (v.has_parent p.attached)
        rw [if_neg (v.parent_ne hx.ne_none)] at ih
        have up : ¬f.Contains q.name (f.parent q.function) := fun h => above h.up
        simp [ih, above, up]
      case neg =>
        rw [if_neg hxF]
        by_cases hp : f.parent x = q.function
        case pos =>
          have ih := ih (hp ▸ p.has_function)
          rw [hp, if_pos rfl] at ih
          have hm : x ∈ [q.name, q.parameters, q.body] :=
            p.parts ▸ v.mem_children.mpr ⟨hp, p.has_function.ne_none⟩
          have below : f.Contains q.name x ↔ x = q.name :=
            ⟨fun h => (v.child_unique name (p.parts ▸ hm) h .refl).symm, fun h => h ▸ .refl⟩
          rw [hp, below]
          have kept (h : x ∈ [q.parameters, q.body] ∨ x = q.name ∧ f.IsName q.name) :
              g.Contains a x ↔ f.Contains a q.function := by
            refine (p.contains_part ha h e).trans <| ih.trans ?_
            simp [above]
          rcases List.mem_cons.mp hm with rfl | hm'
          case inl =>
            by_cases hn : f.IsName q.name
            case pos => simp [kept (.inr ⟨rfl, hn⟩), hn]
            case neg =>
              rw [contains_iff_of_ne e, p.parent_dropped v hn]
              have : ¬g.Contains a none := fun h => ha.ne_none h.eq_none
              simp [this, hn]
          case inr =>
            have hn : x ≠ q.name := by
              rintro rfl
              exact (List.nodup_cons.mp <| p.parts ▸ v.nodup q.function).left hm'
            simp [kept (.inl hm'), hn]
        case neg =>
          have hname : x ≠ q.name := by
            rintro rfl
            exact hp (v.parent_eq name)
          rw [contains_iff_of_ne e, p.parent_of_ne v hx hxF hp, contains_iff_of_ne hname]
          by_cases hnone : f.parent x = none
          case pos =>
            have {f : Forest} : ¬f.Contains a none := fun h => ha.ne_none h.eq_none
            simp [hnone, this]
          case neg =>
            have ih := ih (v.has_parent hnone)
            rwa [if_neg hp] at ih

-- The same if the node above is the function itself: then the class is above.
theorem contains_image (p : f.Promotes g doc q) (v : f.Valid) (ha : f.Has a) (h : f.Contains a x)
    (hN : f.IsName q.name ∨ ¬f.Contains q.name x) :
    g.Contains (if a = q.function then q.cls else a) (if x = q.function then q.cls else x) := by
  induction h
  case refl => exact .refl
  case up x above ih =>
    have hx := above.has ha
    have ih := ih (hN.imp id fun h hc => h (hc.child rfl))
    refine ih.trans ?_
    by_cases hxF : x = q.function
    case pos =>
      subst hxF
      rw [if_pos rfl, if_neg (v.parent_ne p.has_function.ne_none)]
      exact p.parent_cls v ▸ contains_parent g q.cls
    case neg =>
      rw [if_neg hxF]
      by_cases hp : f.parent x = q.function
      case neg =>
        have hx : f.Has x := has_of_parent_ne_none hx.ne_none
        rw [if_neg hp, ← p.parent_of_ne v hx hxF hp]
        exact contains_parent g x
      case pos =>
        have part : x ∈ f.children q.function := hp ▸ v.mem_parent (hp ▸ p.has_function.ne_none)
        rw [p.parts, List.mem_cons] at part
        rw [if_pos hp]
        rcases part with rfl | part
        · exact p.contains_kept (.inr ⟨rfl, hN.resolve_right fun h => h .refl⟩)
        · exact p.contains_kept (.inl part)

end Promotes

namespace Merges

variable {m : MemberAssignment} {members member : Ref} {name : String} {isStatic : Bool}
variable (e : f.Merges g m members member name isStatic) (v : f.Valid)
variable (hS : f.Contains m.statement m.value)
include e v hS

-- What is not below the statement stays where it is.
theorem contains_outside (hx : f.Has x) (hn : ¬f.Contains m.statement x) :
    g.Contains a x ↔ f.Contains a x := by
  refine contains_congr fun y hy _ => ?_
  by_cases hnone : y = none
  case pos => rw [hnone, parent_none, parent_none]
  case neg =>
    refine e.parent_of_ne v (v.has_above hy hx hnone) ?_ ?_
    · rintro rfl
      exact hn hy
    · rintro rfl
      exact hn (hS.trans hy)

-- What is below the function stays there.
theorem contains_value (hx : f.Contains m.value x) : g.Contains m.value x := by
  have hV : f.Has m.value := has_of_parent_ne_none e.attached.right
  refine hx.congr fun y hy hv hne => e.parent_of_ne v (hv.has hV) (fun h => ?_) hne
  exact e.ne (v.antisymm hV.ne_none (h ▸ hS) (h ▸ hv) ▸ h ▸ rfl)

-- What is below the function is afterwards below the members of the class.
theorem contains_inside (ha : a ≠ none) (hn : ¬f.Contains m.statement a) (hf : f.Has a)
    (hm : ¬f.Contains m.statement members) (hx : f.Contains m.value x) :
    g.Contains a x ↔ f.Contains a members := by
  have hg := e.contains_value v hS hx
  have hav : m.value ≠ a := by
    rintro rfl
    exact hn hS
  have members : g.Contains a m.value ↔ f.Contains a members := by
    rw [contains_iff_of_ne hav, e.parent_value, contains_iff_of_ne (e.ne_member hf).symm,
      e.parent_member v, e.contains_outside v hS e.has hm]
  rw [← members]
  constructor <;> intro h
  case mpr => exact h.trans hg
  case mp =>
    refine (h.linear hg).resolve_right fun h => ?_
    exact hn <| hS.trans <| (e.contains_outside v hS hf hn).mp h

-- What is below the statement but not below the function is lost.
theorem not_contains_lost (ha : a ≠ none) (hn : ¬f.Contains m.statement a) (hf : f.Has a)
    (hx : f.Contains m.statement x) (hv : ¬f.Contains m.value x) : ¬g.Contains a x := by
  have hs : f.Has m.statement := has_of_parent_ne_none e.attached.left
  have hg : g.Contains m.statement x := by
    refine hx.congr fun y hy hc hne => e.parent_of_ne v (hc.has hs) hne ?_
    rintro rfl
    exact hv hy
  intro h
  rcases h.linear hg with h | h
  · rcases h.cases_up with h | h
    · exact hn (h ▸ .refl)
    · rw [e.parent_statement v] at h
      exact ha h.eq_none
  · exact hn <| (e.contains_outside v hS hf hn).mp h

theorem contains_iff (hf : f.Has a) (hn : ¬f.Contains m.statement a)
    (hm : ¬f.Contains m.statement members) (hx : f.Has x) :
    g.Contains a x ↔ f.Contains a x ∧ ¬f.Contains m.statement x ∨
      f.Contains m.value x ∧ f.Contains a members := by
  have ha := hf.ne_none
  by_cases hc : f.Contains m.statement x
  case neg =>
    have hv : ¬f.Contains m.value x := fun h => hc (hS.trans h)
    simp [e.contains_outside v hS hx hc, hc, hv]
  case pos =>
    by_cases hv : f.Contains m.value x
    case pos => simp [e.contains_inside v hS ha hn hf hm hv, hc, hv]
    case neg => simp [e.not_contains_lost v hS ha hn hf hc hv, hc, hv]

end Merges

end ClassLift.Forest
