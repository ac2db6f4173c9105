import ClassLift.Convert.Pass
import ClassLift.Proofs.Convert.Member
import ClassLift.Proofs.Convert.Promotion

/-!
What one visit does.
-/

namespace ClassLift

/- The view of a statement -/

-- The parts of `m` are those of its statement.
structure MemberAssignment.IsView (m : MemberAssignment) (f : Forest) : Prop where
  statement  : f.kind? m.statement = some .expressionStatement
  assignment : m.assignment = f.first m.statement ∧ f.kind? m.assignment = some .assignment
  target     : m.target = f.first m.assignment ∧ f.kind? m.target = some .propertyAccess
  value      : m.value = f.second m.assignment
  doc        : m.doc =
    ((f.docIndex? m.statement).or (f.docIndex? m.assignment)).or (f.docIndex? m.value)

namespace MemberAssignment

variable {f : Forest} {r : Ref} {m : MemberAssignment}

theorem ofStatement?_eq_some : ofStatement? f r = some m ↔ m.statement = r ∧ m.IsView f := by
  unfold ofStatement?
  constructor
  case mp =>
    intro h
    simp only [Forest.isKind_iff, Bool.and_eq_true, Option.ite_none_right_eq_some,
      Option.some.injEq] at h
    obtain ⟨⟨⟨hs, ha⟩, ht⟩, rfl⟩ := h
    exact ⟨rfl, hs, ⟨rfl, ha⟩, ⟨rfl, ht⟩, rfl, rfl⟩
  case mpr =>
    rintro ⟨rfl, hs, ⟨ea, ha⟩, ⟨et, ht⟩, ev, ed⟩
    rw [ea] at ha et ev ed
    rw [et] at ht
    rw [ev] at ed
    have kinds : f.isKind m.statement .expressionStatement && f.isKind (f.first m.statement) .assignment &&
        f.isKind (f.first (f.first m.statement)) .propertyAccess := by
      simp [Forest.isKind, hs, ha, ht]
    rw [if_pos kinds]
    cases m
    simp_all

namespace IsView

theorem unique {m' : MemberAssignment} (i : m.IsView f) (i' : m'.IsView f)
    (h : m.statement = m'.statement) : m = m' := by
  have e := ofStatement?_eq_some.mpr ⟨h, i⟩
  exact Option.some.inj <| e.symm.trans <| ofStatement?_eq_some.mpr ⟨rfl, i'⟩

theorem assignment_mem (i : m.IsView f) : m.assignment ∈ f.children m.statement := by
  rw [i.assignment.left]
  refine Forest.child_mem fun h => ?_
  exact (Forest.has_of_kind? i.assignment.right).ne_none (i.assignment.left.trans h)

theorem target_mem (i : m.IsView f) : m.target ∈ f.children m.assignment := by
  rw [i.target.left]
  refine Forest.child_mem fun h => ?_
  exact (Forest.has_of_kind? i.target.right).ne_none (i.target.left.trans h)

theorem value_mem (i : m.IsView f) (h : m.value ≠ none) : m.value ∈ f.children m.assignment := by
  rw [i.value] at h ⊢
  exact Forest.child_mem h

theorem contains_value (i : m.IsView f) (v : f.Valid) (h : m.value ≠ none) :
    f.Contains m.statement m.value :=
  (v.contains_child i.assignment_mem).trans (v.contains_child (i.value_mem h))

theorem doc_lt (i : m.IsView f) (v : f.Valid) {d : Nat} (h : m.doc = some d) : d < f.docs.size := by
  rw [i.doc, Option.or_eq_some_iff, Option.or_eq_some_iff] at h
  rcases h with (h | ⟨-, h⟩) | ⟨-, h⟩ <;> exact v.doc h

end IsView

end MemberAssignment

/- A visit -/

namespace Workspace

variable {options : Options} {w w' : Workspace} {r : Ref} {change : Option Change}

-- The ways a visit ends without an error.
inductive Visited (options : Options) (w : Workspace) (r : Ref) : Option Change → Workspace → Prop
  | pass (kind : w.forest.kind? r ∉
      [some Kind.classDefinition, some Kind.function, some Kind.expressionStatement]) :
    Visited options w r none w
  | cls (kind : w.forest.kind? r = some .classDefinition) :
    Visited options w r none (w.define (w.forest.nearestName? r) r)
  | plain (kind : w.forest.kind? r = some .function) (other : w.forest.constructorDoc? r = none) :
    Visited options w r none w
  | constructor {doc : Nat} {cls : Option Ref} {w' : Workspace}
    (kind : w.forest.kind? r = some .function) (documented : w.forest.constructorDoc? r = some doc)
    (ok : w.PromoteOk doc r cls w') :
    Visited options w r (cls.map (.promotion r)) w'
  | statement (kind : w.forest.kind? r = some .expressionStatement)
    (other : ∀ m : MemberAssignment, m.IsView w.forest → m.statement = r →
      w.forest.kind? (w.forest.parent r) = some .script → m.isMethod w.forest = false) :
    Visited options w r none w
  | method {m : MemberAssignment} {member : Option Ref} {w' : Workspace} (of : m.statement = r)
    (view : m.IsView w.forest) (onScript : w.forest.kind? (w.forest.parent r) = some .script)
    (isMethod : m.isMethod w.forest) (ok : w.MergeOk options m member w') :
    Visited options w r (member.map (.merge m)) w'

-- A visit changes the node itself or takes it apart, if it changes anything.
theorem Visited.change_cases (h : w.Visited options r change w') : change = none ∨
    (∃ cls, change = some (.promotion r cls)) ∨
    ∃ m member, change = some (.merge m member) ∧ m.statement = r := by
  cases h
  case pass | cls | plain | statement => exact .inl rfl
  case constructor ok =>
    cases ok
    case refused => exact .inl rfl
    case promoted => exact .inr (.inl ⟨_, rfl⟩)
  case method of _ _ _ ok =>
    cases ok
    case stays | unknown => exact .inl rfl
    case joins => exact .inr (.inr ⟨_, _, rfl, of⟩)

theorem Visited.forest_eq (h : w.Visited options r none w') : w'.forest = w.forest := by
  generalize hc : none = change at h
  cases h
  case pass | plain | statement => rfl
  case cls => simp
  case constructor ok =>
    cases ok
    case refused => rfl
    case promoted => cases hc
  case method ok =>
    cases ok
    case stays | unknown => rfl
    case joins => cases hc

theorem Visited.of_promotion {x cls : Ref} (h : w.Visited options r (some (.promotion x cls)) w') :
    x = r ∧ ∃ doc q, q.function = r ∧ q.cls = cls ∧ w.forest.kind? r = some .function ∧
      w.forest.constructorDoc? r = some doc ∧ w.forest.Promotes w'.forest doc q := by
  generalize hc : some (Change.promotion x cls) = change at h
  cases h
  case pass | cls | plain | statement => cases hc
  case constructor doc _ kind documented ok =>
    cases ok
    case refused => cases hc
    case promoted q g free ofFunction promotes =>
      cases hc
      exact ⟨rfl, doc, q, ofFunction, rfl, kind, documented, by simpa using promotes⟩
  case method ok => cases ok <;> cases hc

theorem Visited.of_merge {m : MemberAssignment} {member : Ref}
    (h : w.Visited options r (some (.merge m member)) w') :
    m.statement = r ∧ m.IsView w.forest ∧ w.forest.kind? (w.forest.parent r) = some .script ∧
      m.isMethod w.forest ∧ ∃ cls className name, m.Joins w options cls className name ∧
        w.forest.kind? (w.forest.members cls) = some .classMembers ∧
        w.forest.Merges w'.forest m (w.forest.members cls) member name (m.isStatic w.forest) := by
  generalize hc : some (Change.merge m member) = change at h
  cases h
  case pass | cls | plain | statement => cases hc
  case constructor ok => cases ok <;> cases hc
  case method of view onScript isMethod ok =>
    cases ok
    case stays | unknown => cases hc
    case joins joins kind merges =>
      cases hc
      exact ⟨of, view, onScript, isMethod, _, _, _, joins, kind, merges⟩

-- A method that can be merged is merged when its statement is visited.
theorem Visited.merges_of_joins {m : MemberAssignment} {cls : Ref} {className name : String}
    (h : w.Visited options m.statement change w') (view : m.IsView w.forest)
    (onScript : w.forest.kind? (w.forest.parent m.statement) = some .script)
    (isMethod : m.isMethod w.forest) (j : m.Joins w options cls className name) :
    ∃ member, change = some (.merge m member) := by
  cases h
  case pass kind => simp [view.statement] at kind
  case cls kind => cases kind.symm.trans view.statement
  case plain kind _ => cases kind.symm.trans view.statement
  case constructor kind _ _ => cases kind.symm.trans view.statement
  case statement other => simp [other m view rfl onScript] at isMethod
  case method of view' _ _ ok =>
    obtain rfl := view'.unique view of
    cases ok
    case stays out _ | unknown out _ _ _ => exact absurd j (out _ _ _)
    case joins => exact ⟨_, rfl⟩

theorem constructorDoc?_lt {f : Forest} {doc : Nat} (h : f.constructorDoc? r = some doc) :
    doc < f.docs.size := by
  obtain ⟨-, h⟩ := Option.filter_eq_some_iff.mp h
  by_contra hn
  simp [Array.getElem?_eq_none (Nat.le_of_not_lt hn)] at h

theorem visited_of_ok (v : w.forest.Valid) (h : w.visit options r = (.ok change, w')) :
    Visited options w r change w' := by
  unfold visit at h
  split at h
  case h_1 kind =>
    cases h
    exact .cls kind
  case h_2 kind =>
    split at h
    case h_1 doc =>
      cases h
      exact .plain kind doc
    case h_2 doc hd =>
      rcases hp : w.promote r doc with ⟨result, w₁⟩
      simp only [hp, Prod.mk.injEq] at h
      obtain ⟨h, rfl⟩ := h
      cases result
      case error => cases h
      case ok cls =>
        cases h
        exact .constructor kind hd (promote_ok v (constructorDoc?_lt hd) hp)
  case h_3 kind =>
    split at h
    case isFalse onScript =>
      cases h
      exact .statement kind fun _ _ _ hs => absurd (Forest.isKind_iff.mpr hs) onScript
    case isTrue onScript =>
      split at h
      case h_1 hm =>
        cases h
        refine .statement kind fun m view of _ => ?_
        cases hm.symm.trans <| MemberAssignment.ofStatement?_eq_some.mpr ⟨of, view⟩
      case h_2 m hm =>
        have ⟨of, view⟩ := MemberAssignment.ofStatement?_eq_some.mp hm
        split at h
        case isTrue isMethod =>
          rcases hp : w.merge options m with ⟨result, w₁⟩
          simp only [hp, Prod.mk.injEq] at h
          obtain ⟨h, rfl⟩ := h
          cases result
          case error => cases h
          case ok member =>
            cases h
            exact .method of view (Forest.isKind_iff.mp onScript) isMethod
              (merge_ok v (view.doc_lt v) hp)
        case isFalse isMethod =>
          cases h
          refine .statement kind fun m' view' of' _ => ?_
          cases hm.symm.trans <| MemberAssignment.ofStatement?_eq_some.mpr ⟨of', view'⟩
          simpa using isMethod
  case h_4 h₁ h₂ h₃ =>
    cases h
    exact .pass <| by simpa using ⟨h₁, h₂, h₃⟩

end Workspace

end ClassLift
