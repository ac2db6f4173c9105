import ClassLift.Proofs.Convert.Failure
import ClassLift.Proofs.Convert.Segments

/-!
The parts of a target: the path of the class, `prototype` if the member is one of its instances, and
the name of the member. Together they are the whole target, unless an instance has a member that is
itself named `prototype`: the class is looked for from the outside, so that this name is taken for the
link to the class.
-/

namespace ClassLift

theorem Path.toText_concat {path : List String} {name : String} (h : path ≠ []) :
    toText (path ++ [name]) = toText path ++ "." ++ name := by
  rw [toText, String.intercalate_append_of_ne_nil h (by simp), String.intercalate_singleton]
  rfl

namespace Forest

variable {f : Forest} {r : Ref} {depth depth' : Nat} {path front : List String} {name : String}

-- A path that is read within a depth is also read within a larger one.
theorem pathWithin_mono (h : f.pathWithin depth r = some path) (more : depth ≤ depth') :
    f.pathWithin depth' r = some path := by
  induction depth generalizing depth' r path
  case zero => cases h
  case succ depth ih =>
    obtain ⟨depth', rfl⟩ := Nat.exists_eq_add_of_lt more
    rw [pathWithin] at h ⊢
    split at h
    case h_1 => exact h
    case h_2 => exact h
    case h_4 => cases h
    case h_3 =>
      simp only [Option.bind_eq_bind, Option.bind_eq_some_iff] at h ⊢
      obtain ⟨name, named, object, before, segments⟩ := h
      exact ⟨name, named, object, ih before (Nat.le_add_right ..), segments⟩

-- The last segment of an access is its own, and the others are those of its object.
theorem path?_access (kind : f.kind? r = some .propertyAccess) (h : f.path? r = some path) :
    ∃ front name, path = front ++ [name] ∧ f.path? (f.first r) = some front ∧
      f.propertyName? r = some name := by
  rw [path?, pathWithin, kind] at h
  simp only [Option.bind_eq_bind, Option.bind_eq_some_iff] at h
  obtain ⟨name, named, front, before, segments⟩ := h
  refine ⟨front, name, (Option.some.inj segments).symm, pathWithin_mono before (Nat.le_succ _), ?_⟩
  rw [propertyName?, if_pos (isKind_iff.mpr kind), named]

-- A path of more than one segment is an access.
theorem kind?_of_path? (h : f.path? r = some (front ++ [name])) (more : front ≠ []) :
    f.kind? r = some .propertyAccess := by
  have single (segment : String) : front ++ [name] ≠ [segment] := fun same =>
    more ((List.append_eq_singleton_iff.mp same).resolve_right (by simp)).left
  rw [path?, pathWithin] at h
  split at h
  case h_1 =>
    obtain ⟨segment, -, same⟩ := Option.map_eq_some_iff.mp h
    exact absurd same.symm (single segment)
  case h_2 => exact absurd (Option.some.inj h).symm (single "this")
  case h_3 kind => exact kind
  case h_4 => cases h

theorem isPrototype_iff (h : f.path? r = some path) :
    MemberAssignment.isPrototype f r ↔ ∃ cls, cls ≠ [] ∧ path = cls ++ ["prototype"] := by
  constructor
  case mp =>
    intro link
    obtain ⟨cls, name, rfl, object, named⟩ := path?_access (MemberAssignment.kind?_of_isPrototype link) h
    rw [MemberAssignment.isPrototype, named, beq_iff_eq] at link
    cases link
    exact ⟨cls, path?_ne_nil object, rfl⟩
  case mpr =>
    rintro ⟨cls, more, rfl⟩
    obtain ⟨front, name, same, -, named⟩ := path?_access (kind?_of_path? h more) h
    cases (List.append_inj' same rfl).right
    rw [MemberAssignment.isPrototype, named, beq_self_eq_true]

end Forest

namespace MemberAssignment

open Forest

variable {f : Forest} {r : Ref} {m : MemberAssignment} {path front cls : List String} {name : String}

-- What is before the name of the member are the segments of the object.
theorem IsView.parts (view : m.IsView f) (h : f.path? m.target = some path) :
    ∃ front name, path = front ++ [name] ∧ front ≠ [] ∧ f.path? (f.first m.target) = some front ∧
      m.memberName? f = some name := by
  obtain ⟨front, name, rfl, object, named⟩ := path?_access view.target.right h
  exact ⟨front, name, rfl, path?_ne_nil object, object, named⟩

theorem isStatic_iff (object : f.path? (f.first m.target) = some front) :
    m.isStatic f = false ↔ ∃ cls, cls ≠ [] ∧ front = cls ++ ["prototype"] := by
  rw [isStatic, Bool.not_eq_false', isPrototype_iff object]

theorem className?_of_static (object : f.path? (f.first m.target) = some front)
    (static : m.isStatic f) : m.className? f = .ok (some (Path.toText front)) := by
  rw [className?, if_pos static, qualifiedName?, object, Option.map_some]

-- The search for the link begins at the member itself.
theorem IsView.className?_of_instance (view : m.IsView f) (named : m.memberName? f = some name)
    (object : f.path? (f.first m.target) = some (cls ++ ["prototype"])) (more : cls ≠ []) :
    m.className? f =
      .ok (some (Path.toText (if name = "prototype" then cls ++ ["prototype"] else cls))) := by
  have isInstance := (isStatic_iff object).mpr ⟨cls, more, rfl⟩
  have kind := view.target.right
  have kind' := kind?_of_path? object more
  have link := (isPrototype_iff object).mpr ⟨cls, more, rfl⟩
  obtain ⟨front, last, same, inner, -⟩ := path?_access kind' object
  cases (List.append_inj' same rfl).left
  have ⟨i, small, _⟩ := has_iff.mp (has_of_kind? kind)
  obtain ⟨size, hs⟩ := Nat.exists_eq_succ_of_ne_zero (Nat.ne_of_gt (Nat.zero_lt_of_lt small))
  have own : isPrototype f m.target ↔ name = "prototype" := by
    rw [isPrototype, beq_iff_eq, ← memberName?, named, Option.some_inj]
  rw [className?, if_neg (by simp [isInstance]), prototypeWithin, if_pos (isKind_iff.mpr kind)]
  by_cases same : name = "prototype"
  case pos =>
    rw [if_pos (own.mpr same), if_pos same]
    simp only [qualifiedName?, object, Option.map_some]
  case neg =>
    rw [if_neg (own.not.mpr same), if_neg same, hs, prototypeWithin, if_pos (isKind_iff.mpr kind'),
      if_pos link]
    simp only [qualifiedName?, inner, Option.map_some]

-- The text of the whole target.
def written (className : String) (isStatic : Bool) (name : String) : String :=
  className ++ (if isStatic then "." else ".prototype.") ++ name

theorem written_static (h : front ≠ []) :
    written (Path.toText front) true name = Path.toText (front ++ [name]) :=
  (Path.toText_concat h).symm

theorem written_instance (h : cls ≠ []) :
    written (Path.toText cls) false name = Path.toText (cls ++ ["prototype"] ++ [name]) := by
  rw [Path.toText_concat (by simp), Path.toText_concat h]
  simp [written, String.append_assoc]

-- A member is one of the instances exactly if the segment before its name is `prototype` and not the
-- first one. The segments before that are its class, unless the member has the name `prototype`, too.
theorem target_parts (view : ofStatement? f r = some m) (h : f.path? m.target = some path) :
    ∃ front name, path = front ++ [name] ∧ front ≠ [] ∧ m.memberName? f = some name ∧
      (∀ cls, cls ≠ [] → front = cls ++ ["prototype"] → m.isStatic f = false ∧
        m.className? f = .ok (some (Path.toText (if name = "prototype" then front else cls)))) ∧
      ((∀ cls, cls ≠ [] → front ≠ cls ++ ["prototype"]) → m.isStatic f ∧
        m.className? f = .ok (some (Path.toText front))) ∧
      (m.isStatic f ∨ name ≠ "prototype" → ∃ className, m.className? f = .ok (some className) ∧
        f.qualifiedName? m.target = some (written className (m.isStatic f) name)) := by
  have view := (ofStatement?_eq_some.mp view).right
  obtain ⟨front, name, rfl, more, object, named⟩ := view.parts h
  have whole : f.qualifiedName? m.target = some (Path.toText (front ++ [name])) := by
    rw [qualifiedName?, h, Option.map_some]
  refine ⟨front, name, rfl, more, named, fun cls cls_more same => ?prototype, fun none => ?static,
    fun plain => ?whole⟩
  case prototype =>
    refine ⟨(isStatic_iff object).mpr ⟨cls, cls_more, same⟩, ?_⟩
    rw [view.className?_of_instance named (same ▸ object) cls_more, same]
  case static =>
    have static : m.isStatic f := by
      by_contra isInstance
      obtain ⟨cls, cls_more, same⟩ := (isStatic_iff object).mp (by simpa using isInstance)
      exact none cls cls_more same
    exact ⟨static, className?_of_static object static⟩
  case whole =>
    cases static : m.isStatic f
    case true => exact ⟨_, className?_of_static object static, whole ▸ by rw [written_static more]⟩
    case false =>
      obtain ⟨cls, cls_more, rfl⟩ := (isStatic_iff object).mp static
      have plain : name ≠ "prototype" := plain.resolve_left (by simp [static])
      refine ⟨_, view.className?_of_instance named object cls_more, ?_⟩
      rw [if_neg plain, whole, written_instance cls_more]

-- The method of the sample is one of the instances of `A`.
theorem target_parts_sample : ∃ m, ofStatement? sample (some 5) = some m ∧
    sample.path? m.target = some ["A", "prototype", "m"] ∧
    m.isStatic sample = false ∧ m.className? sample = .ok (some "A") ∧
    m.memberName? sample = some "m" := by
  have view : ofStatement? sample (some 5) = some ⟨some 5, some 6, some 7, some 12, none⟩ := rfl
  have path : sample.path? (some 7) = some ["A", "prototype", "m"] := rfl
  obtain ⟨front, name, parts, -, named, ofClass, -⟩ := target_parts view path
  obtain ⟨rfl, last⟩ : ["A", "prototype"] = front ∧ ["m"] = [name] := List.append_inj' parts rfl
  cases last
  have ⟨isInstance, ofClass⟩ := ofClass ["A"] (by simp) rfl
  rw [if_neg (by decide), Path.toText_singleton] at ofClass
  exact ⟨_, view, path, isInstance, ofClass, named⟩

-- `A.prototype.prototype = function () {};`
def twice : Forest where
  nodes := #[
    { kind := .expressionStatement, children := [some 1] },
    { kind := .assignment, parent := some 0, children := [some 2, some 7] },
    { kind := .propertyAccess, parent := some 1, children := [some 3, some 6] },
    { kind := .propertyAccess, parent := some 2, children := [some 4, some 5] },
    { kind := .identifier, data := some 0, parent := some 3 },
    { kind := .identifier, data := some 1, parent := some 3 },
    { kind := .identifier, data := some 1, parent := some 2 },
    { kind := .function, parent := some 1, children := [some 8, some 9, some 10] },
    { kind := .empty, parent := some 7 },
    { kind := .parameterList, parent := some 7 },
    { kind := .block, parent := some 7 }]
  texts := #["A", "prototype"]

-- The class is said to be `A.prototype`, so the target is not what the parts are put together to.
theorem twice_parts : twice.check = .ok () ∧
    ∃ m, ofStatement? twice (some 0) = some m ∧ twice.path? m.target = some ["A", "prototype", "prototype"] ∧
      m.isStatic twice = false ∧ m.memberName? twice = some "prototype" ∧
      m.className? twice = .ok (some "A.prototype") ∧
      twice.qualifiedName? m.target ≠ some (written "A.prototype" false "prototype") :=
  ⟨(check_eq_checkChains _).trans rfl, ⟨some 0, some 1, some 2, some 7, none⟩, by decide⟩

end MemberAssignment

end ClassLift
