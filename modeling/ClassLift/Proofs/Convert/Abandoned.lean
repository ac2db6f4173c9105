import ClassLift.Proofs.Convert.Failure

/-!
Promotions and merges on their own, when they fail. Neither defines a name then, finds or counts
anything, and the forest is the same in all cases but two: a function with the right parts has been
taken apart before it turns out that it hangs below nothing, and a statement whose assignment has no
value has been taken out of its tree before it turns out that there is nothing to move.
-/

namespace ClassLift

-- A function that a class could be made of, but that has no place where the class could stand.
structure Forest.Unplaced (f : Forest) (function : Ref) : Prop where
  kind  : f.kind? function = some .function
  parts : (f.children function).length = 3
  lone  : f.parent function = none

-- A statement that would be merged if it had a value.
structure MemberAssignment.Hollow (m : MemberAssignment) (w : Workspace) (options : Options) : Prop where
  attached : w.forest.parent m.statement ≠ none
  hollow   : m.value = none
  joins    : ∃ cls className name, m.Joins w options cls className name ∧
    w.forest.kind? (w.forest.members cls) = some .classMembers

namespace Workspace

-- All that is not the forest.
structure Keeps (w w' : Workspace) : Prop where
  registry : w'.registry = w.registry
  findings : w'.findings = w.findings
  stats    : w'.stats = w.stats

variable {options : Options} {w w' : Workspace} {function : Ref} {e : ConversionError} {doc : Nat}

theorem Keeps.refl (w : Workspace) : w.Keeps w :=
  ⟨rfl, rfl, rfl⟩

theorem Keeps.set_forest (w : Workspace) (f : Forest) : w.Keeps { w with forest := f } :=
  ⟨rfl, rfl, rfl⟩

-- Nothing has been done yet.
theorem nothing_done {halfDone : Prop} {e' : ConversionError} (other : ¬halfDone) :
    w.Keeps w ∧ (w = w ↔ ¬halfDone) ∧ (w ≠ w → e = e') :=
  ⟨.refl w, iff_of_true rfl other, fun moved => absurd rfl moved⟩

/- Promotions -/

theorem promoteAs_unplaced (v : w.forest.Valid) {name : Option String} (hd : doc < w.forest.docs.size)
    (unplaced : w.forest.Unplaced function) : ∃ g, g.children function = [] ∧
      w.promoteAs name function doc = (.error (.tree (.noParent function)), { w with forest := g }) := by
  have has := Forest.has_of_kind? unplaced.kind
  obtain ⟨n, p, b, parts⟩ := List.length_eq_three.mp unplaced.parts
  obtain ⟨bare, hb⟩ := Forest.exists_detachChildren has
  rw [parts] at hb
  rcases ha : bare.addPromoted function n p b doc with ⟨f, cls⟩
  obtain ⟨q, rfl, rfl, prepares, -⟩ := Forest.prepares_of_addPromoted v hd hb ha
  have lone := (prepares.parent_function v has).trans unplaced.lone
  refine ⟨f, ?_, ?_⟩
  · rw [prepares.old has, if_pos rfl]
  · unfold promoteAs
    simp only [hb, ha, Forest.replaceWith, lone, if_true]

theorem promoteAs_unplaced_iff (v : w.forest.Valid) {name : Option String} (hd : doc < w.forest.docs.size)
    (kind : w.forest.kind? function = some .function)
    (h : w.promoteAs name function doc = (.error e, w')) :
    w.Keeps w' ∧ (w' = w ↔ ¬w.forest.Unplaced function) ∧ (w' ≠ w → e = .tree (.noParent function)) := by
  have has := Forest.has_of_kind? kind
  by_cases parts : (w.forest.children function).length = 3
  case neg =>
    cases h.symm.trans (promoteAs_malformed has parts)
    exact nothing_done fun unplaced => parts unplaced.parts
  case pos =>
    by_cases lone : w.forest.parent function = none
    case neg =>
      obtain ⟨cls, w₁, ok⟩ := promoteAs_isOk v name hd lone parts
      cases h.symm.trans ok
    case pos =>
      have unplaced : w.forest.Unplaced function := ⟨kind, parts, lone⟩
      obtain ⟨g, bare, failed⟩ := promoteAs_unplaced v hd unplaced
      cases h.symm.trans failed
      refine ⟨.set_forest w g, iff_of_false (fun same => ?_) (not_not_intro unplaced), fun _ => rfl⟩
      rw [← same] at parts
      simp [bare] at parts

theorem promote_unplaced_iff (v : w.forest.Valid) (hd : doc < w.forest.docs.size)
    (h : w.promote function doc = (.error e, w')) :
    w.Keeps w' ∧ (w' = w ↔ ¬w.forest.Unplaced function) ∧
      (w' ≠ w → e = .tree (.noParent function)) := by
  unfold promote at h
  split at h
  case h_1 e hk =>
    cases h
    refine nothing_done fun unplaced => ?_
    rw [Forest.expectKind_eq_ok (u := ()) |>.mpr unplaced.kind] at hk
    cases hk
  case h_2 hk =>
    simp only at h
    split at h
    case h_1 => cases h
    case h_2 =>
      rcases ha : w.promoteAs (w.forest.nearestName? function) function doc with ⟨out, w₁⟩
      simp only [ha, Prod.mk.injEq] at h
      obtain ⟨h, rfl⟩ := h
      cases out
      case ok => cases h
      case error =>
        cases h
        exact promoteAs_unplaced_iff v hd (Forest.expectKind_eq_ok.mp hk) ha

/- Merges -/

theorem moveInto_error (v : w.forest.Valid) {m : MemberAssignment} (view : m.IsView w.forest)
    {members : Ref} {name : String} {isStatic : Bool} (hm : w.forest.Has members)
    (apart : m.value ≠ none → ¬w.forest.Contains m.value members)
    (h : w.moveInto members m name isStatic = (.error e, w')) :
    w.Keeps w' ∧ (w' = w ↔ ¬(w.forest.parent m.statement ≠ none ∧ m.value = none)) ∧
      (w' ≠ w → e = .tree (.invalidIndex none)) := by
  by_cases attached : w.forest.parent m.statement = none
  case pos =>
    simp only [moveInto, Forest.detach_lone (Forest.has_of_kind? view.statement) attached] at h
    cases h
    exact nothing_done fun placed => placed.left attached
  case neg =>
    obtain ⟨f, hf⟩ := Forest.exists_detach v attached
    by_cases value : m.value = none
    case pos =>
      simp only [moveInto, hf, value, Forest.detach_none] at h
      cases h
      refine ⟨.set_forest w f, iff_of_false (fun same => ?_) (not_not_intro ⟨attached, value⟩), fun _ => rfl⟩
      have taken : f.parent m.statement = none := by
        rw [(Forest.detaches_of_ok v hf).parent, if_pos rfl]
      rw [← same] at attached
      exact absurd taken attached
    case neg =>
      obtain ⟨member, w₁, ok⟩ := moveInto_isOk v view attached value hm (apart value) name isStatic
      cases h.symm.trans ok

theorem merge_hollow_iff (v : w.forest.Valid) {m : MemberAssignment} (view : m.IsView w.forest)
    (h : w.merge options m = (.error e, w')) :
    w.Keeps w' ∧ (w' = w ↔ ¬m.Hollow w options) ∧ (w' ≠ w → e = .tree (.invalidIndex none)) := by
  cases mergeError_of_error view.target.right h
  case list cls _ _ e joins list =>
    refine nothing_done fun ⟨_, _, cls', _, _, joins', list'⟩ => ?_
    rw [joins'.unique joins, ← Forest.expectKind_eq_ok (u := ()), list] at list'
    cases list'
  case move cls className name joins list moved =>
    obtain ⟨keeps, same, error⟩ := moveInto_error v view (Forest.has_of_kind? list)
      (fun value => not_contains_members v view value joins list) moved
    have hollow : m.Hollow w options ↔ w.forest.parent m.statement ≠ none ∧ m.value = none :=
      ⟨fun h => ⟨h.attached, h.hollow⟩, fun h => ⟨h.left, h.right, cls, className, name, joins, list⟩⟩
    exact ⟨keeps, by rw [same, hollow], error⟩

-- A promotion or a merge that fails leaves all as it was, unless it has begun to take apart what it
-- cannot finish.
theorem failure_is_local (h : w.forest.check = .ok ()) :
    (∀ function doc e w', doc < w.forest.docs.size → w.promote function doc = (.error e, w') →
      w.Keeps w' ∧ (w' = w ↔ ¬w.forest.Unplaced function) ∧ (w' ≠ w → e = .tree (.noParent function))) ∧
    (∀ options r m e w', MemberAssignment.ofStatement? w.forest r = some m →
      w.merge options m = (.error e, w') →
      w.Keeps w' ∧ (w' = w ↔ ¬m.Hollow w options) ∧ (w' ≠ w → e = .tree (.invalidIndex none))) := by
  have v := Forest.valid_of_check h
  refine ⟨fun function doc e w' hd hp => ?promotion, fun options r m e w' hm hw => ?merge⟩
  case promotion => exact promote_unplaced_iff v hd hp
  case merge => exact merge_hollow_iff v (MemberAssignment.ofStatement?_eq_some.mp hm).right hw

-- A function without a body in a script, which is no class, and another one that hangs below nothing.
def severed : Forest where
  nodes := #[
    { kind := .script, data := some 0, children := [some 1] },
    { kind := .function, doc := some 0, parent := some 0, children := [some 2, some 3] },
    { kind := .empty, parent := some 1 },
    { kind := .parameterList, parent := some 1 },
    { kind := .function, doc := some 0, children := [some 5, some 6, some 7] },
    { kind := .empty, parent := some 4 },
    { kind := .parameterList, parent := some 4 },
    { kind := .block, parent := some 4 }]
  files := #["a.js"]
  docs := #[.constructor none none]

theorem severed_check : severed.check = .ok () :=
  (Forest.check_eq_checkChains _).trans rfl

-- `A.f = function () {}` behind a class A that has lost its list of members.
def listless : Forest where
  nodes := #[
    { kind := .script, data := some 0, children := [some 1, some 3] },
    { kind := .classDefinition, parent := some 0, children := [some 2] },
    { kind := .identifier, data := some 0, parent := some 1 },
    { kind := .expressionStatement, parent := some 0, children := [some 4] },
    { kind := .assignment, parent := some 3, children := [some 5, some 8] },
    { kind := .propertyAccess, parent := some 4, children := [some 6, some 7] },
    { kind := .identifier, data := some 0, parent := some 5 },
    { kind := .identifier, data := some 1, parent := some 5 },
    { kind := .function, parent := some 4, children := [some 9, some 10, some 11] },
    { kind := .empty, parent := some 8 },
    { kind := .parameterList, parent := some 8 },
    { kind := .block, parent := some 8 }]
  texts := #["A", "f"]
  files := #["a.js"]

def awaiting : Workspace where
  forest   := listless
  registry := { entries := [("A", some 1)] }

-- The function without a body is left alone, and so is the statement whose class has no list.
theorem failure_is_local_severed :
    ({ forest := severed } : Workspace).promote (some 1) 0 =
      (.error (.malformedFunction (some 1)), { forest := severed }) ∧
    ∃ m, MemberAssignment.ofStatement? listless (some 3) = some m ∧ awaiting.merge {} m =
      (.error (.tree (.unexpectedKind (some 2) .classMembers .identifier)), awaiting) := by
  constructor
  case left =>
    have failed : ({ forest := severed } : Workspace).promote (some 1) 0 = (_, _) := rfl
    have placed : ¬severed.Unplaced (some 1) := fun unplaced => absurd unplaced.lone (by decide)
    have ⟨promotion, _⟩ := failure_is_local (w := { forest := severed }) severed_check
    have ⟨_, same, _⟩ := promotion (some 1) 0 _ _ (by decide) failed
    exact Prod.ext rfl (same.mpr placed)
  case right =>
    have ⟨_, merge⟩ := failure_is_local (w := awaiting) ((Forest.check_eq_checkChains _).trans rfl)
    refine ⟨_, rfl, ?_⟩
    have ⟨_, same, _⟩ := merge {} (some 3) _ _ _ rfl rfl
    exact Prod.ext rfl (same.mpr fun hollow => absurd hollow.hollow (by decide))

-- `class A {}  A.f = ;`
def hollow : Forest where
  nodes := #[
    { kind := .script, data := some 0, children := [some 1, some 5] },
    { kind := .classDefinition, parent := some 0, children := [some 2, some 3, some 4] },
    { kind := .identifier, data := some 0, parent := some 1 },
    { kind := .empty, parent := some 1 },
    { kind := .classMembers, parent := some 1 },
    { kind := .expressionStatement, parent := some 0, children := [some 6] },
    { kind := .assignment, parent := some 5, children := [some 7] },
    { kind := .propertyAccess, parent := some 6, children := [some 8, some 9] },
    { kind := .identifier, data := some 0, parent := some 7 },
    { kind := .identifier, data := some 1, parent := some 7 }]
  texts := #["A", "f"]
  files := #["a.js"]

theorem hollow_check : hollow.check = .ok () :=
  (Forest.check_eq_checkChains _).trans rfl

-- The function that hangs below nothing loses its parts, and the statement without a value its place.
theorem taken_apart :
    (severed.check = .ok () ∧ ∃ w', ({ forest := severed } : Workspace).promote (some 4) 0 =
      (.error (.tree (.noParent (some 4))), w') ∧ severed.children (some 4) ≠ [] ∧
      w'.forest.children (some 4) = []) ∧
    (hollow.check = .ok () ∧ ∃ m w', MemberAssignment.ofStatement? hollow (some 5) = some m ∧
      ({ forest := hollow, registry := { entries := [("A", some 1)] } } : Workspace).merge {} m =
        (.error (.tree (.invalidIndex none)), w') ∧
      hollow.parent (some 5) = some 0 ∧ w'.forest.parent (some 5) = none) :=
  ⟨⟨severed_check, _, rfl, by decide, rfl⟩, ⟨hollow_check, _, _, rfl, rfl, rfl, rfl⟩⟩

end Workspace

end ClassLift
