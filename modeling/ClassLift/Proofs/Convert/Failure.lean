import ClassLift.Proofs.Convert.Visit

/-!
When a visit fails. Two malformations of a script are seen only by the visit that runs into them, and
it has not changed anything then.
-/

namespace ClassLift

namespace MemberAssignment

variable {f : Forest} {m : MemberAssignment} {object : Ref}

theorem kind?_of_isPrototype (h : isPrototype f object) : f.kind? object = some .propertyAccess := by
  simp only [isPrototype, Forest.propertyName?, beq_iff_eq, Option.ite_none_right_eq_some] at h
  exact Forest.isKind_iff.mp h.left

-- A member that is not static has a link to a prototype in its target, one step down at most.
theorem className?_isOk (ht : f.kind? m.target = some .propertyAccess) :
    ∃ name, m.className? f = .ok name := by
  unfold className?
  split
  case isTrue => exact ⟨_, rfl⟩
  case isFalse hs =>
    have link : isPrototype f (f.first m.target) := by simpa [isStatic] using hs
    obtain ⟨i, hi, -⟩ := Forest.has_iff.mp (Forest.has_of_kind? ht)
    obtain ⟨n, hn⟩ := Nat.exists_eq_succ_of_ne_zero (Nat.ne_zero_of_lt hi)
    have access : ∃ access, prototypeWithin f (f.size + 1) m.target = some access := by
      rw [hn, prototypeWithin, if_pos (Forest.isKind_iff.mpr ht)]
      split
      case isTrue => exact ⟨_, rfl⟩
      case isFalse =>
        rw [prototypeWithin, if_pos (Forest.isKind_iff.mpr (kind?_of_isPrototype link)), if_pos link]
        exact ⟨_, rfl⟩
    obtain ⟨access, ha⟩ := access
    rw [ha]
    exact ⟨_, rfl⟩

end MemberAssignment

namespace Workspace

variable {options : Options} {w w' : Workspace} {r function : Ref} {e : ConversionError} {doc : Nat}

-- The ways a visit ends with an error.
inductive Fails (options : Options) (w : Workspace) (r : Ref) : ConversionError → Prop
  | function {doc : Nat} (kind : w.forest.kind? r = some .function)
    (documented : w.forest.constructorDoc? r = some doc) (free : w.refusal? r = none)
    (parts : (w.forest.children r).length ≠ 3) :
    Fails options w r (.malformedFunction r)
  | list {m : MemberAssignment} {cls : Ref} {className name : String} {e : TreeError}
    (of : m.statement = r) (view : m.IsView w.forest)
    (onScript : w.forest.kind? (w.forest.parent r) = some .script) (isMethod : m.isMethod w.forest)
    (joins : m.Joins w options cls className name)
    (list : w.forest.expectKind (w.forest.members cls) .classMembers = .error e) :
    Fails options w r (.tree e)

theorem promoteAs_malformed {name : Option String} (has : w.forest.Has function)
    (parts : (w.forest.children function).length ≠ 3) :
    w.promoteAs name function doc = (.error (.malformedFunction function), w) := by
  obtain ⟨b, hb⟩ := Forest.exists_detachChildren has
  rw [promoteAs, hb]
  split
  case h_1 h =>
    simp only [Except.ok.injEq, Prod.mk.injEq] at h
    simp [h.right] at parts
  case h_2 => rfl
  case h_3 h => cases h

-- A function that hangs somewhere and has three parts becomes a class.
theorem promoteAs_isOk (v : w.forest.Valid) (name : Option String) (hd : doc < w.forest.docs.size)
    (attached : w.forest.parent function ≠ none) (parts : (w.forest.children function).length = 3) :
    ∃ cls w', w.promoteAs name function doc = (.ok cls, w') := by
  obtain ⟨n, p, d, parts⟩ := List.length_eq_three.mp parts
  obtain ⟨b, hb⟩ := Forest.exists_detachChildren (Forest.has_of_parent_ne_none attached)
  rw [parts] at hb
  rcases ha : b.addPromoted function n p d doc with ⟨f, cls⟩
  obtain ⟨q, rfl, rfl, prepares, -⟩ := Forest.prepares_of_addPromoted v hd hb ha
  obtain ⟨g, hg⟩ := prepares.exists_replaceWith v attached
  unfold promoteAs
  simp [hb, ha, hg]

theorem promoteAs_error (v : w.forest.Valid) {name : Option String} (hd : doc < w.forest.docs.size)
    (attached : w.forest.parent function ≠ none)
    (h : w.promoteAs name function doc = (.error e, w')) :
    w' = w ∧ e = .malformedFunction function ∧ (w.forest.children function).length ≠ 3 := by
  by_cases parts : (w.forest.children function).length = 3
  case pos =>
    obtain ⟨cls, w₁, ok⟩ := promoteAs_isOk v name hd attached parts
    cases h.symm.trans ok
  case neg =>
    cases h.symm.trans (promoteAs_malformed (Forest.has_of_parent_ne_none attached) parts)
    exact ⟨rfl, rfl, parts⟩

theorem promote_error (v : w.forest.Valid) (hk : w.forest.kind? r = some .function)
    (hd : w.forest.constructorDoc? r = some doc) (attached : w.forest.parent r ≠ none)
    (h : w.promote r doc = (.error e, w')) : w' = w ∧ w.Fails options r e := by
  unfold promote at h
  rw [Forest.expectKind_eq_ok (u := ()) |>.mpr hk] at h
  simp only at h
  split at h
  case h_1 => cases h
  case h_2 free =>
    rcases ha : w.promoteAs (w.forest.nearestName? r) r doc with ⟨out, w₁⟩
    simp only [ha, Prod.mk.injEq] at h
    obtain ⟨h, rfl⟩ := h
    cases out
    case ok => cases h
    case error =>
      cases h
      obtain ⟨rfl, rfl, parts⟩ := promoteAs_error v (constructorDoc?_lt hd) attached ha
      exact ⟨rfl, .function hk hd free parts⟩

-- The members of a class are not in the value that joins them.
theorem not_contains_members (v : w.forest.Valid) {m : MemberAssignment} {cls : Ref}
    {className name : String} (view : m.IsView w.forest) (value : m.value ≠ none)
    (j : m.Joins w options cls className name)
    (list : w.forest.kind? (w.forest.members cls) = some .classMembers) :
    ¬w.forest.Contains m.value (w.forest.members cls) := by
  intro hc
  have has := (Forest.has_of_kind? list).ne_none
  have home : w.forest.parent (w.forest.members cls) = cls := v.parent_eq (Forest.members_mem has)
  rcases hc.cases_up with h | hc
  · rw [h, v.parent_eq (view.value_mem value)] at home
    cases (home ▸ Forest.kind?_of_members has).symm.trans view.assignment.right
  · exact j.not_contains v value (home ▸ hc)

-- The statement is taken out first, and then its value.
theorem exists_detach_value (v : w.forest.Valid) {m : MemberAssignment} (view : m.IsView w.forest)
    (value : m.value ≠ none) {f : Forest} (h : w.forest.detach m.statement = .ok f) :
    ∃ g, f.detach m.value = .ok g := by
  have d := Forest.detaches_of_ok v h
  have ne : m.value ≠ m.statement := fun e =>
    v.not_contains_of_child view.assignment_mem (e ▸ v.contains_child (view.value_mem value))
  refine Forest.exists_detach (d.valid v) ?_
  rw [d.parent, if_neg ne, v.parent_eq (view.value_mem value)]
  exact (Forest.has_of_kind? view.assignment.right).ne_none

theorem moveInto_isOk (v : w.forest.Valid) {m : MemberAssignment} (view : m.IsView w.forest)
    (attached : w.forest.parent m.statement ≠ none) (value : m.value ≠ none) {members : Ref}
    (hm : w.forest.Has members) (apart : ¬w.forest.Contains m.value members) (name : String)
    (isStatic : Bool) : ∃ member w', w.moveInto members m name isStatic = (.ok member, w') := by
  obtain ⟨f₁, h₁⟩ := Forest.exists_detach v attached
  obtain ⟨f₂, h₂⟩ := exists_detach_value v view value h₁
  rcases h₃ : f₂.addMember name isStatic m.value with ⟨f₃, member⟩
  have lifts := Forest.lifts_of_detach v (view.doc_lt v) h₁ h₂ h₃
  obtain ⟨g, hg⟩ := lifts.exists_appendChild hm apart
  unfold moveInto
  simp [h₁, h₂, h₃, hg]

-- Where a merge fails: there is a class to join, but it has no list of members, or the statement
-- cannot be taken apart.
inductive MergeError (w : Workspace) (options : Options) (m : MemberAssignment) :
    ConversionError → Workspace → Prop
  | list {cls : Ref} {className name : String} {e : TreeError}
    (joins : m.Joins w options cls className name)
    (list : w.forest.expectKind (w.forest.members cls) .classMembers = .error e) :
    MergeError w options m (.tree e) w
  | move {cls : Ref} {className name : String} {e : ConversionError} {w' : Workspace}
    (joins : m.Joins w options cls className name)
    (list : w.forest.kind? (w.forest.members cls) = some .classMembers)
    (moved : w.moveInto (w.forest.members cls) m name (m.isStatic w.forest) = (.error e, w')) :
    MergeError w options m e w'

theorem mergeError_of_error {m : MemberAssignment}
    (target : w.forest.kind? m.target = some .propertyAccess)
    (h : w.merge options m = (.error e, w')) : w.MergeError options m e w' := by
  obtain ⟨className, ofClass⟩ := MemberAssignment.className?_isOk target
  unfold merge at h
  simp only [ofClass] at h
  split at h
  case isTrue => cases h
  case isFalse hs =>
    have allowed : m.isStatic w.forest → options.mergeStaticMethods := by simpa using hs
    cases className
    case none => cases h
    case some className =>
      simp only at h
      split at h
      case h_1 => split at h <;> cases h
      case h_2 cls registered =>
        split at h
        case h_1 => cases h
        case h_2 name named =>
          split at h
          case isTrue => cases h
          case isFalse apart =>
            have joins : m.Joins w options cls className name :=
              ⟨allowed, ofClass, registered, named, by simpa using apart⟩
            split at h
            case h_1 e list =>
              cases h
              exact .list joins list
            case h_2 list =>
              rcases hm : w.moveInto (w.forest.members cls) m name (m.isStatic w.forest) with ⟨out, w₁⟩
              simp only [hm, Prod.mk.injEq] at h
              obtain ⟨h, rfl⟩ := h
              cases out
              case ok => cases h
              case error =>
                cases h
                exact .move joins (Forest.expectKind_eq_ok.mp list) hm

theorem merge_error (v : w.forest.Valid) {m : MemberAssignment} (view : m.IsView w.forest)
    (onScript : w.forest.kind? (w.forest.parent m.statement) = some .script)
    (isMethod : m.isMethod w.forest) (h : w.merge options m = (.error e, w')) :
    w' = w ∧ w.Fails options m.statement e := by
  have value : m.value ≠ none := (Forest.has_of_kind? (Forest.isKind_iff.mp isMethod)).ne_none
  have attached : w.forest.parent m.statement ≠ none := (Forest.has_of_kind? onScript).ne_none
  cases mergeError_of_error view.target.right h
  case list joins list => exact ⟨rfl, .list rfl view onScript isMethod joins list⟩
  case move name joins list moved =>
    obtain ⟨member, w₁, ok⟩ := moveInto_isOk v view attached value (Forest.has_of_kind? list)
      (not_contains_members v view value joins list) name (m.isStatic w.forest)
    cases moved.symm.trans ok

-- A visit that fails has not changed anything.
theorem fails_of_error (v : w.forest.Valid)
    (attached : w.forest.kind? r ≠ some .script → w.forest.parent r ≠ none)
    (h : w.visit options r = (.error e, w')) : w' = w ∧ w.Fails options r e := by
  unfold visit at h
  split at h
  case h_1 => cases h
  case h_2 kind =>
    split at h
    case h_1 => cases h
    case h_2 doc hd =>
      rcases hp : w.promote r doc with ⟨result, w₁⟩
      simp only [hp, Prod.mk.injEq] at h
      obtain ⟨h, rfl⟩ := h
      cases result
      case ok => cases h
      case error =>
        cases h
        exact promote_error v kind hd (attached (by simp [kind])) hp
  case h_3 =>
    split at h
    case isFalse => cases h
    case isTrue onScript =>
      split at h
      case h_1 => cases h
      case h_2 m hm =>
        obtain ⟨rfl, view⟩ := MemberAssignment.ofStatement?_eq_some.mp hm
        split at h
        case isFalse => cases h
        case isTrue isMethod =>
          rcases hp : w.merge options m with ⟨result, w₁⟩
          simp only [hp, Prod.mk.injEq] at h
          obtain ⟨h, rfl⟩ := h
          cases result
          case ok => cases h
          case error =>
            cases h
            exact merge_error v view (Forest.isKind_iff.mp onScript) isMethod hp
  case h_4 => cases h

end Workspace

end ClassLift
