import ClassLift.Proofs.Convert.Spared

/-!
Paths as names. A member joins a class if both have the same name, which is the text of a path. As long
as no segment has a dot in it, the paths are the same, too.
-/

namespace ClassLift

open Forest

/- The paths that names come from -/

namespace Forest

-- A variable and a key are one segment, and the target of an assignment has its own.
def boundPath? (f : Forest) (r : Ref) : Option (List String) :=
  let parent := f.parent r
  match f.kind? parent with
  | some .variableDeclaration =>
    if f.isValueOf r parent then (f.identifierText? (f.first parent)).map ([·]) else none
  | some .assignment => if f.isValueOf r parent then f.path? (f.first parent) else none
  | some .propertyAssignment => (f.text? parent).map ([·])
  | _ => none

def nearestPath? (f : Forest) (r : Ref) : Option (List String) :=
  ((f.boundPath? r).filter (Path.toText · ≠ "")).or
    (((f.ownName? r).map ([·])).filter (Path.toText · ≠ ""))

variable {f : Forest} {r : Ref} {depth : Nat} {path : List String}

theorem map_toText_singleton (name : Option String) : (name.map ([·])).map Path.toText = name := by
  cases name <;> simp

theorem boundName?_eq_map (f : Forest) (r : Ref) :
    f.boundName? r = (f.boundPath? r).map Path.toText := by
  simp only [boundName?, boundPath?]
  rcases f.kind? (f.parent r) with _ | k
  case none => rfl
  case some =>
    cases k
    case variableDeclaration =>
      by_cases h : f.isValueOf r (f.parent r) <;> simp only [h, if_true, map_toText_singleton]
      rfl
    case assignment => by_cases h : f.isValueOf r (f.parent r) <;> simp [h, qualifiedName?]
    case propertyAssignment => exact (map_toText_singleton _).symm
    all_goals rfl

theorem nearestName?_eq_map (f : Forest) (r : Ref) :
    f.nearestName? r = (f.nearestPath? r).map Path.toText := by
  have filter (path : Option (List String)) :
      (path.map Path.toText).filter (· ≠ "") = (path.filter (Path.toText · ≠ "")).map Path.toText :=
    Option.filter_map
  rw [nearestName?, nearestPath?, boundName?_eq_map, Option.map_or, ← filter, ← filter,
    map_toText_singleton]

-- A name is not empty.
theorem nearestPath?_ne_nil (h : f.nearestPath? r = some path) : path ≠ [] := by
  have text : Path.toText path ≠ "" := by
    rcases Option.or_eq_some_iff.mp h with h | ⟨-, h⟩ <;> simpa using (Option.filter_eq_some_iff.mp h).right
  rintro rfl
  exact text rfl

theorem path?_ne_nil (h : f.path? r = some path) : path ≠ [] := by
  unfold path? pathWithin at h
  split at h
  · obtain ⟨text, -, rfl⟩ := Option.map_eq_some_iff.mp h
    simp
  · cases h
    simp
  · simp only [Option.bind_eq_bind, Option.bind_eq_some_iff] at h
    obtain ⟨name, -, object, -, e⟩ := h
    cases e
    simp
  · cases h

end Forest

namespace MemberAssignment

-- The segments of the target that name the class.
def classPath? (m : MemberAssignment) (f : Forest) : Option (List String) :=
  if m.isStatic f then
    f.path? (f.first m.target)
  else
    (prototypeWithin f (f.size + 1) m.target).bind fun access => f.path? (f.first access)

variable {m : MemberAssignment} {f : Forest} {className : String} {path : List String}

theorem classPath?_of_className? (h : m.className? f = .ok (some className)) :
    ∃ path, m.classPath? f = some path ∧ Path.toText path = className := by
  have of_name {r : Ref} (h : f.qualifiedName? r = some className) :
      ∃ path, f.path? r = some path ∧ Path.toText path = className :=
    Option.map_eq_some_iff.mp h
  unfold className? at h
  unfold classPath?
  split at h
  case isTrue static =>
    rw [if_pos static]
    exact of_name (Except.ok.inj h)
  case isFalse instance' =>
    rw [if_neg instance']
    split at h
    case h_1 access found => exact found ▸ of_name (Except.ok.inj h)
    case h_2 => cases h

theorem classPath?_ne_nil (h : m.classPath? f = some path) : path ≠ [] := by
  unfold classPath? at h
  split at h
  · exact path?_ne_nil h
  · obtain ⟨access, -, h⟩ := Option.bind_eq_some_iff.mp h
    exact path?_ne_nil h

end MemberAssignment

variable {options : Options} {f g : Forest} {root script r : Ref} {log : Log} {w : Workspace}
variable {summary : Summary} {m : MemberAssignment} {member : Ref} {className : String}

-- The definition `r` of the name `className` was the first of its script, and it has got the member.
structure Receives (f g : Forest) (log : Log) (script member r : Ref) (className : String) : Prop where
  first   : f.firstOf? (f.postorder script) className = some r
  named   : f.nearestName? r = some className
  ofClass : g.kind? (log.image r) = some .classDefinition
  home    : g.parent (g.parent member) = log.image r

/- One script -/

theorem Finished.receives (h : Finished f options script w) (v : f.Valid)
    (hm : .merge m member ∈ f.changes options script) : ∃ r className,
      m.className? f = .ok (some className) ∧ w.forest.Contains script (w.forest.parent member) ∧
        Receives f w.forest (f.changes options script) script member r className := by
  obtain ⟨r, className, ofClass, first, kind, home, above⟩ := h.home v hm
  exact ⟨r, className, ofClass, above, first, (mem_of_firstOf? first).right, kind, home⟩

/- Scripts one after the other -/

theorem Passes.receives {ss : List Ref} (h : Passes options ss f log summary g) (v : f.Valid)
    (hm : .merge m member ∈ log) : ∃ script ∈ ss, ∃ r className, f.Contains script m.statement ∧
      m.className? f = .ok (some className) ∧ Receives f g log script member r className := by
  obtain ⟨s, hs, site, e, w, p, hm'⟩ := h.pass_of_mem hm
  have ⟨r, className, ofClass, above, receives⟩ := p.finished.receives p.valid hm'
  have has := p.before.agree.has
  have inside (x : Ref) (hx : x ∈ f.postorder s) : f.Contains s x :=
    (v.mem_postorder has.ne_none).mp hx
  have first := receives.first
  rw [p.before.postorder_eq v .refl, p.before.firstOf?_eq inside] at first
  have ⟨definition, named⟩ := mem_of_firstOf? first
  have hr := inside r (mem_definitions.mp definition).left
  have image := p.image_eq hr
  have view := h.isView hm
  have target := (p.before.target view.target.right).left
  refine ⟨s, hs, r, className, site, target ▸ ofClass, first, named, ?_, ?_⟩
  · rw [image, p.after.ext.kind? (has_of_kind? receives.ofClass), receives.ofClass]
  · rw [image, p.after.parent (above.child rfl), p.after.parent above, receives.home]

/- Whole conversions -/

-- The class that a member joins has the same name as the class in the target. The paths that the names
-- come from are the same if no segment has a dot in it.
theorem joins_own_path (h : f.check = .ok ()) (formed : f.Formed root)
    (ok : f.convert options root = (.ok summary, g))
    (hm : .merge m member ∈ f.allChanges options root) :
    ∃ script ∈ f.scripts root, ∃ r className path path', f.Contains script m.statement ∧
      Receives f g (f.allChanges options root) script member r className ∧
      m.classPath? f = some path ∧ f.nearestPath? r = some path' ∧
      Path.toText path = className ∧ Path.toText path' = className ∧
      ((∀ segment ∈ path ++ path', '.' ∉ segment.toList) → path = path') := by
  have v := valid_of_check h
  obtain ⟨script, hs, r, className, site, ofClass, receives⟩ := (passes_of_formed v formed ok).receives v hm
  obtain ⟨path, found, text⟩ := MemberAssignment.classPath?_of_className? ofClass
  obtain ⟨path', found', text'⟩ := Option.map_eq_some_iff.mp <| nearestName?_eq_map f r ▸ receives.named
  refine ⟨script, hs, r, className, path, path', site, receives, found, found', text, text', fun plain => ?_⟩
  exact Path.toText_inj plain (MemberAssignment.classPath?_ne_nil found) (nearestPath?_ne_nil found')
    (text.trans text'.symm)

theorem sample_merge : .merge ⟨some 5, some 6, some 7, some 12, none⟩ (some 22) ∈
    sample.allChanges {} (some 0) := by
  decide

-- The method of the sample joins the class that the function `A` has become.
theorem joins_own_path_sample :
    sample.isShaped ∧ (sample.foldScript {} (some 0)).2.forest.parent
      ((sample.foldScript {} (some 0)).2.forest.parent (some 22)) =
        (sample.allChanges {} (some 0)).image (some 1) ∧
      MemberAssignment.classPath? ⟨some 5, some 6, some 7, some 12, none⟩ sample =
        sample.nearestPath? (some 1) := by
  have shaped : sample.isShaped := rfl
  obtain ⟨script, hs, r, className, path, path', -, receives, found, found', text, -, same⟩ :=
    joins_own_path sample_check (shaped_of_isShaped shaped _).formed sample_convert sample_merge
  obtain rfl : script = some 0 := List.mem_singleton.mp hs
  have isPath : path = ["A"] := Option.some.inj (found.symm.trans rfl)
  have first : sample.firstOf? (sample.postorder (some 0)) "A" = some (some 1) := rfl
  obtain rfl : className = "A" := text.symm.trans (by simp [isPath])
  obtain rfl : some 1 = r := Option.some.inj (first.symm.trans receives.first)
  have isPath' : path' = ["A"] := Option.some.inj (found'.symm.trans rfl)
  have e : path = path' := same (by simp [isPath, isPath'])
  exact ⟨shaped, receives.home, found.trans (e ▸ found'.symm)⟩

-- A class under the key `A.B` of an object, and a function that is assigned to `A.B.f`.
def keyed : Forest where
  nodes := #[
    { kind := .script, data := some 0, children := [some 1, some 10] },
    { kind := .variableStatement, parent := some 0, children := [some 2] },
    { kind := .variableDeclaration, parent := some 1, children := [some 3, some 4] },
    { kind := .identifier, data := some 0, parent := some 2 },
    { kind := .objectLiteral, parent := some 2, children := [some 5] },
    { kind := .propertyAssignment, data := some 1, parent := some 4, children := [some 6] },
    { kind := .classDefinition, parent := some 5, children := [some 7, some 8, some 9] },
    { kind := .empty, parent := some 6 },
    { kind := .empty, parent := some 6 },
    { kind := .classMembers, parent := some 6 },
    { kind := .expressionStatement, parent := some 0, children := [some 11] },
    { kind := .assignment, parent := some 10, children := [some 12, some 17] },
    { kind := .propertyAccess, parent := some 11, children := [some 13, some 16] },
    { kind := .propertyAccess, parent := some 12, children := [some 14, some 15] },
    { kind := .identifier, data := some 2, parent := some 13 },
    { kind := .identifier, data := some 3, parent := some 13 },
    { kind := .identifier, data := some 4, parent := some 12 },
    { kind := .function, parent := some 11, children := [some 18, some 19, some 20] },
    { kind := .empty, parent := some 17 },
    { kind := .parameterList, parent := some 17 },
    { kind := .block, parent := some 17 }]
  texts := #["o", "A.B", "A", "B", "f"]
  files := #["a.js"]

theorem keyed_check : keyed.check = .ok () ∧ keyed.isShaped :=
  ⟨(check_eq_checkChains _).trans rfl, rfl⟩

theorem keyed_convert :
    let w := (keyed.foldScript {} (some 0)).2
    keyed.convert {} (some 0) = (.ok { findings := w.findings, stats := w.stats }, w.forest) :=
  convert_of_foldScript keyed_check.left rfl rfl

-- The function becomes a member of the class, although the class is not at `A.B`.
theorem keyed_joins :
    keyed.check = .ok () ∧ keyed.isShaped ∧
    ∃ summary g, keyed.convert {} (some 0) = (.ok summary, g) ∧
      ∃ m member, .merge m member ∈ keyed.allChanges {} (some 0) ∧
        g.parent (g.parent member) = some 6 ∧ g.kind? (some 6) = some .classDefinition ∧
        m.classPath? keyed = some ["A", "B"] ∧ keyed.nearestPath? (some 6) = some ["A.B"] := by
  refine ⟨keyed_check.left, keyed_check.right, _, _, keyed_convert,
    ⟨some 10, some 11, some 12, some 17, none⟩, some 21, ?_⟩
  decide

end ClassLift
