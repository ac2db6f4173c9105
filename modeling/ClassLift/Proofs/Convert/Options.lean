import ClassLift.Proofs.Convert.Counterparts
import ClassLift.Proofs.Convert.Muted
import ClassLift.Proofs.Convert.Outline

/-!
What the options of a conversion decide. Either of them takes something away and leaves the rest as it is.
-/

namespace ClassLift

open Forest

variable {options options' : Options} {f g g' : Forest} {r x c : Ref} {ss done : List Ref} {log log' : Log}
variable {w : Workspace} {summary summary' : Summary}

/- Statements that are left -/

-- A statement `r` below `x` is still there, in the order that it had with all else that no merge has taken
-- from `x`. What is new comes last.
structure LeftIn (f g : Forest) (log : Log) (x r : Ref) : Prop where
  image      : log.image r = r
  left       : r ∉ log.taken
  among      : ∃ new, g.children x = ((f.children x).filter (· ∉ log.taken)).map log.image ++ new ∧
    ∀ c ∈ new, ¬f.Has c
  below      : g.children r = (f.children r).map log.image
  assignment : g.children (f.first r) = (f.children (f.first r)).map log.image

-- Whether a statement assigns to a class itself.
def Forest.isStaticStatement (f : Forest) (r : Ref) : Bool :=
  (MemberAssignment.ofStatement? f r).any (·.isStatic f)

theorem isStaticStatement_iff :
    f.isStaticStatement r ↔ ∃ m : MemberAssignment, m.statement = r ∧ m.IsView f ∧ m.isStatic f := by
  rw [isStaticStatement, Option.any_eq_true]
  refine exists_congr fun m => ?_
  rw [MemberAssignment.ofStatement?_eq_some, and_assoc]

theorem Progress.leftIn (p : Progress f done log w) (v : f.Valid) (formed : f.isFormed x)
    (hr : r ∈ f.children x) (statement : f.kind? r = some .expressionStatement)
    (assignment : f.kind? (f.first r) = some .assignment) (left : r ∉ log.statements) :
    LeftIn f w.forest log x r := by
  have kept : r ∉ log.taken := by
    intro taken
    obtain ⟨m, member, hm, rfl | rfl⟩ := Log.mem_taken.mp taken
    · exact left (Log.mem_statements.mpr ⟨m, member, hm, rfl⟩)
    · cases statement.symm.trans (p.merged hm).value
  refine ⟨p.image_eq_self statement (by simp), kept, ?among, ?below, ?assignment⟩
  case among =>
    have none : (log.cls? x).isSome = false := by
      rw [Option.isSome_eq_false_iff, Option.isNone_iff_eq_none, Log.cls?_eq_none]
      rintro ⟨cls, hm⟩
      have part := kind_of_part formed (p.promoted hm).kind hr
      simp [statement] at part
    refine ⟨log.members.filter (w.forest.parent · = x), ?_, fun c hc => ?_⟩
    · rw [p.contents (has_of_mem_children hr), Log.contents, none]
      rfl
    · exact p.new_member (List.mem_filter.mp hc).left
  case below => exact p.children_of_kind v statement (by simp)
  case assignment =>
    have has := has_of_kind? assignment
    have above : f.parent (f.first r) = r := v.parent_eq (child_mem has.ne_none)
    refine p.children_image v has (p.cls?_none_of_kind assignment (by simp)) ?_ ?_ fun _ => by rwa [above]
    all_goals simp [assignment]

-- A static statement is left unless the options let it be merged.
theorem Passes.leftIn (h : Passes options ss f log summary g) (v : f.Valid) (shaped : f.isShaped)
    (off : options.mergeStaticMethods = false) (hr : r ∈ f.children x) (static : f.isStaticStatement r) :
    LeftIn f g log x r := by
  obtain ⟨m, rfl, view, static⟩ := isStaticStatement_iff.mp static
  have p := h.whole.progress
  refine p.leftIn v (isFormed_of_isShaped shaped x) hr view.statement
    (view.assignment.left ▸ view.assignment.right) fun hm => ?_
  obtain ⟨m', member, hm, same⟩ := Log.mem_statements.mp hm
  obtain rfl := view.unique (p.merged hm).view same.symm
  obtain ⟨_, _, _, _, allowed⟩ := (h.merged_iff v shaped).mp ⟨member, hm⟩
  cases off.symm.trans (allowed static)

/- Classes -/

theorem Passes.exists_image (h : Passes options ss f log summary g) (hc : g.kind? c = some .classDefinition) :
    ∃ r, log.image r = c ∧ (f.kind? r = some .classDefinition ∨ (log.cls? r).isSome) := by
  rcases h.whole.classes hc with hk | ⟨r, hm⟩
  case inl => exact ⟨c, h.whole.progress.image_eq_self hk (by simp), .inl hk⟩
  case inr => exact ⟨r, Log.image_of_some (h.cls?_eq hm), .inr (Log.cls?_isSome hm)⟩

/- Whole conversions -/

-- Without reports of unknown classes a conversion does the same, and only these reports are missing. Without
-- static members it finds the same, and promotes and registers as many classes. The static statements are
-- left where they are, and the other members of all classes are the same.
theorem options_only_filter (h : f.check = .ok ()) (options : Options) (root : Ref) :
    (let loud := f.convert { options with reportUnknownClasses := true } root
     f.convert { options with reportUnknownClasses := false } root =
       (loud.1.map fun s => { s with findings := s.findings.filter (!·.isUnknown) }, loud.2)) ∧
    (f.isShaped →
      let on := { options with mergeStaticMethods := true }
      let off := { options with mergeStaticMethods := false }
      let log := f.allChanges on root
      let log' := f.allChanges off root
      let g := (f.convert on root).2
      let g' := (f.convert off root).2
      (f.convert off root).1.map Summary.outline = (f.convert on root).1.map Summary.outline ∧
      (∀ x, ∀ r ∈ f.children x, f.isStaticStatement r → LeftIn f g' log' x r) ∧
      (∀ c, g.kind? c = some .classDefinition → ∃ r, log.image r = c ∧ SameClass f g g' log log' r) ∧
      (∀ c, g'.kind? c = some .classDefinition → ∃ r, log'.image r = c ∧ SameClass f g g' log log' r)) := by
  have v := valid_of_check h
  refine ⟨convert_mute v options root, fun shaped => ?_⟩
  obtain ⟨summary, passes⟩ := passes_of_shaped v shaped { options with mergeStaticMethods := true } root
  obtain ⟨summary', passes'⟩ := passes_of_shaped v shaped { options with mergeStaticMethods := false } root
  refine ⟨?outline, fun x r hr => passes'.leftIn v shaped rfl hr, fun c hc => ?classes, fun c hc => ?classes'⟩
  case outline =>
    rw [convert_outline v shaped, convert_outline v shaped]
    rfl
  case classes =>
    obtain ⟨r, image, cls⟩ := passes.exists_image hc
    exact ⟨r, image, sameClass passes passes' v shaped rfl rfl cls⟩
  case classes' =>
    obtain ⟨r, image, cls⟩ := passes'.exists_image hc
    rw [passes'.cls?_isSome_iff v, ← passes.cls?_isSome_iff v] at cls
    exact ⟨r, image, sameClass passes passes' v shaped rfl rfl cls⟩

-- `function A() {}` with a method for its instances, and before it a static one.
def mixed : Forest where
  nodes := sample.nodes.modify 0 (fun n => { n with children := [some 1, some 16, some 5] }) ++ #[
    { kind := .expressionStatement, parent := some 0, children := [some 17] },
    { kind := .assignment, parent := some 16, children := [some 18, some 21] },
    { kind := .propertyAccess, parent := some 17, children := [some 19, some 20] },
    { kind := .identifier, data := some 0, parent := some 18 },
    { kind := .identifier, data := some 3, parent := some 18 },
    { kind := .function, parent := some 17, children := [some 22, some 23, some 24] },
    { kind := .empty, parent := some 21 },
    { kind := .parameterList, parent := some 21 },
    { kind := .block, parent := some 21 }]
  texts := #["A", "prototype", "m", "s"]
  files := #["a.js"]
  docs := #[.constructor none none]

theorem mixed_check : mixed.check = .ok () ∧ mixed.isShaped :=
  ⟨(check_eq_checkChains _).trans rfl, rfl⟩

theorem mixed_convert :
    (mixed.convert {} (some 0)).1.map (·.stats.membersMerged) = .ok 2 ∧
      (mixed.convert { mergeStaticMethods := false } (some 0)).1.map (·.stats.membersMerged) = .ok 1 ∧
      (mixed.convert {} (some 0)).2.kind? (some 30) = some .classDefinition := by
  have v := valid_of_check mixed_check.left
  rw [convert_of_script v rfl, convert_of_script v rfl]
  exact ⟨rfl, rfl, rfl⟩

-- Without static members the static method is left where it is, and the class has the other one.
theorem options_only_filter_mixed :
    mixed.check = .ok () ∧ mixed.isShaped ∧ mixed.isStaticStatement (some 16) ∧
      let off : Options := { mergeStaticMethods := false }
      let log := mixed.allChanges {} (some 0)
      let log' := mixed.allChanges off (some 0)
      let g := (mixed.convert {} (some 0)).2
      let g' := (mixed.convert off (some 0)).2
      LeftIn mixed g' log' (some 0) (some 16) ∧
      ∃ r, log.image r = some 30 ∧ SameClass mixed g g' log log' r := by
  have ⟨checked, shaped⟩ := mixed_check
  have static : mixed.isStaticStatement (some 16) := rfl
  have ⟨_, left, classes, _⟩ := (options_only_filter checked {} (some 0)).right shaped
  exact ⟨checked, shaped, static, left (some 0) (some 16) (by decide) static,
    classes (some 30) mixed_convert.right.right⟩

end ClassLift
