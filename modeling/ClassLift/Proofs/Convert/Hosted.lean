import ClassLift.Proofs.Convert.Lockstep

/-!
A script and the forests that host it. Its conversion has the same result in each of them: the same
findings, the same counts and the same tree.
-/

namespace ClassLift

open Forest

variable {f e : Forest} {s r x : Ref} {options : Options} {w u : Workspace} {m : MemberAssignment}
variable {order : List Ref} {name : String}

-- The parts of an assignment have always been there.
theorem MemberAssignment.IsView.renumber_self {k : Nat} (i : m.IsView f) (v : f.Valid) :
    m.renumber (f.shift k) = m := by
  have value : m.value ≠ none → f.Has m.value := fun hn => v.has_child (i.value_mem hn)
  rw [MemberAssignment.renumber, shift_of_has (has_of_kind? i.statement), shift_of_has (has_of_kind? i.assignment.right),
    shift_of_has (has_of_kind? i.target.right), shift_of_ref value]

namespace Hosts

/- Definitions -/

section Definitions

variable (o : Hosts f e s) (v : f.Valid) (hs : f.kind? s = some .script)
include o v hs

theorem constructorDoc?_eq (hc : f.Contains s x) (hk : f.kind? x = some .function) :
    e.constructorDoc? x = f.constructorDoc? x := by
  have same := (o.mirror v).constructorDoc?_eq hs (sees_of_contains hc) (Mirror.ne_root hs hk (by simp))
  rwa [shift_of_has (has_of_kind? hk)] at same

theorem isDefinition_eq (hc : f.Contains s x) : e.isDefinition x = f.isDefinition x := by
  rw [isDefinition, isDefinition, o.isKind_eq hc, o.isKind_eq hc]
  cases hk : f.isKind x .function
  case false => rfl
  case true => rw [o.constructorDoc?_eq v hs hc (isKind_iff.mp hk)]

theorem nearestName?_eq (hc : f.Contains s x) (definition : f.isDefinition x) :
    e.nearestName? x = f.nearestName? x := by
  have ⟨has, ne⟩ : f.Has x ∧ x ≠ s := by
    rcases isDefinition_iff.mp definition with hk | ⟨hk, -⟩ <;>
      exact ⟨has_of_kind? hk, Mirror.ne_root hs hk (by simp)⟩
  have same := (o.mirror v).nearestName?_eq v (sees_of_contains hc) ne
  rwa [shift_of_has has] at same

theorem firstOf?_eq (below : ∀ x ∈ order, f.Contains s x) (name : String) :
    e.firstOf? order name = f.firstOf? order name := by
  have definitions : e.definitions order = f.definitions order :=
    List.filter_congr fun x hx => o.isDefinition_eq v hs (below x hx)
  rw [firstOf?, firstOf?, definitions]
  refine List.find?_congr fun x hx => ?_
  obtain ⟨mem, definition⟩ := mem_definitions.mp hx
  rw [o.nearestName?_eq v hs (below x mem) definition]

theorem firstOf?_before (x : Ref) (name : String) :
    e.firstOf? (e.before s x) name = f.firstOf? (f.before s x) name := by
  have has := has_of_kind? hs
  rw [before, o.postorder_eq v has, ← before]
  exact o.firstOf?_eq v hs (fun y hy => (v.mem_postorder has.ne_none).mp
    ((List.takeWhile_sublist _).subset hy)) name

theorem isTaken_eq (hc : f.Contains s x) (definition : f.isDefinition x) :
    e.isTaken s x = f.isTaken s x := by
  rw [isTaken, isTaken, o.nearestName?_eq v hs hc definition]
  cases f.nearestName? x
  case none => rfl
  case some name => simp only [Option.any_some, o.firstOf?_before v hs]

theorem becomesClass_eq (hc : f.Contains s x) : e.becomesClass s x = f.becomesClass s x := by
  rw [becomesClass, becomesClass, o.isKind_eq hc]
  cases hk : f.isKind x .function
  case false => rfl
  case true =>
    rw [o.constructorDoc?_eq v hs hc (isKind_iff.mp hk)]
    cases hd : (f.constructorDoc? x).isSome
    case false => rfl
    case true =>
      rw [o.isTaken_eq v hs hc (isDefinition_iff.mpr (.inr ⟨isKind_iff.mp hk, hd⟩))]

/- Places -/

theorem enclosingScript_eq (hc : f.Contains s x) :
    e.enclosingScript x = f.enclosingScript x ∧ f.Contains s (f.enclosingScript x) := by
  induction hc
  case refl =>
    have script : f.isKind s .script := isKind_iff.mpr hs
    rw [Forest.enclosingScript_eq o.valid, Forest.enclosingScript_eq v, o.isKind_eq .refl, if_pos script,
      if_pos script]
    exact ⟨rfl, .refl⟩
  case up x above ih =>
    rw [Forest.enclosingScript_eq o.valid, Forest.enclosingScript_eq v, o.isKind_eq above.up,
      o.parent_eq above.up]
    split
    case isTrue => exact ⟨rfl, above.up⟩
    case isFalse => exact ih

theorem finding_eq (hc : f.Contains s x) (problem : Problem) (name : String) :
    Finding.at e problem x name = .at f problem x name := by
  obtain ⟨same, below⟩ := o.enclosingScript_eq v hs hc
  have file : e.fileName? (f.enclosingScript x) = f.fileName? (f.enclosingScript x) := by
    rw [fileName?, o.node below, o.files, ← fileName?]
  rw [Finding.at, Finding.at, same, file, o.node hc]

/- Findings -/

theorem redefinedAt?_eq (hc : f.Contains s x) : e.redefinedAt? s x = f.redefinedAt? s x := by
  rw [redefinedAt?, redefinedAt?, o.isDefinition_eq v hs hc]
  cases hd : f.isDefinition x
  case false => rfl
  case true =>
    rw [o.isTaken_eq v hs hc hd, o.nearestName?_eq v hs hc hd, funext (o.finding_eq v hs hc .classRedefined)]

omit hs in
theorem ofStatement?_eq (hc : f.Contains s x) (hx : f.Has x) :
    MemberAssignment.ofStatement? e x = MemberAssignment.ofStatement? f x := by
  have same := MemberAssignment.ofStatement?_mirror (o.mirror v) (sees_of_contains hc)
  rw [shift_of_has hx] at same
  rw [same]
  cases hm : MemberAssignment.ofStatement? f x
  case none => rfl
  case some m =>
    obtain ⟨rfl, view⟩ := MemberAssignment.ofStatement?_eq_some.mp hm
    rw [Option.map_some, view.renumber_self v]

theorem leftAt?_eq (hc : f.Contains s x) (hx : f.Has x) : e.leftAt? s x = f.leftAt? s x := by
  unfold leftAt?
  rw [o.ofStatement?_eq v hc hx]
  cases hm : MemberAssignment.ofStatement? f x
  case none => rfl
  case some m =>
    obtain ⟨rfl, view⟩ := MemberAssignment.ofStatement?_eq_some.mp hm
    have above := hc.parent_of_ne (Mirror.ne_root hs view.statement (by simp))
    rw [Option.filter_some, Option.filter_some, o.parent_eq hc, o.isKind_eq above]
    by_cases hn : m.value = none
    case pos => simp [MemberAssignment.isMethod, hn, isKind, kind?]
    case neg =>
      have below := hc.trans (view.contains_value v hn)
      rw [MemberAssignment.isMethod, MemberAssignment.isMethod, o.isKind_eq below,
        o.becomesClass_eq v hs below]

theorem unknown?_eq (view : m.IsView f) (hc : f.Contains s m.statement) (isKnown : String → Bool) :
    m.unknown? e options isKnown = m.unknown? f options isKnown := by
  have mirror := o.mirror v
  have target := (view.sees mirror (sees_of_contains hc)).right.left
  obtain ⟨className, ofClass⟩ := MemberAssignment.className?_isOk view.target.right
  have ofClass' := MemberAssignment.className?_mirror mirror target v ofClass
  have static := MemberAssignment.isStatic_mirror mirror target
  rw [view.renumber_self v] at ofClass' static
  have below := target (has_of_kind? view.target.right)
  simp only [MemberAssignment.unknown?, ofClass, ofClass', static, o.finding_eq v hs below]

theorem findingAt?_eq (hc : f.Contains s x) (hx : f.Has x) :
    e.findingAt? options s x = f.findingAt? options s x := by
  rw [findingAt?, findingAt?, o.redefinedAt?_eq v hs hc, missingAt?, missingAt?, o.leftAt?_eq v hs hc hx]
  cases hm : f.leftAt? s x
  case none => rfl
  case some m =>
    obtain ⟨rfl, view, -⟩ := leftAt?_eq_some hm
    simp only [Option.bind_some, o.unknown?_eq v hs view hc, o.firstOf?_before v hs]

end Definitions

/- Conversions -/

theorem findings_eq (o : Hosts f e s) (v : f.Valid) (ok : f.runScript options s = (.ok (), w))
    (ok' : e.runScript options s = (.ok (), u)) : u.findings = w.findings := by
  obtain ⟨hs, run⟩ := run_of_ok v ok
  obtain ⟨hs', run'⟩ := run_of_ok o.valid ok'
  have has := has_of_kind? hs
  rw [run.findings_eq v has (List.append_nil _).symm,
    run'.findings_eq o.valid (has_of_kind? hs') (List.append_nil _).symm, o.postorder_eq v has]
  refine List.filterMap_congr fun x hx => ?_
  have hc := (v.mem_postorder has.ne_none).mp hx
  exact o.findingAt?_eq v hs hc (hc.has has)

end Hosts

-- The conversion of a script has the same result where there is more around it.
theorem Hosts.convertScript (o : Hosts f e s) (v : f.Valid) {summary : Summary}
    (ok : (f.convertScript options s).1 = .ok summary) :
    (e.convertScript options s).1 = .ok summary ∧
      ∃ k, Mirror f s k (f.convertScript options s).2 (e.convertScript options s).2 := by
  have whole : f.convertScript options s = (.ok summary, (f.convertScript options s).2) := Prod.ext ok rfl
  obtain ⟨w, hw, rfl, forest⟩ := convertScript_ok whole
  obtain ⟨u, hu, a⟩ := o.runScript v hw
  rw [forest]
  simp only [Forest.convertScript, hu, Except.map]
  exact ⟨by rw [Workspace.summary, a.stats, o.findings_eq v hw hu], _, a.forest⟩

end ClassLift
