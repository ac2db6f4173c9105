import ClassLift.Proofs.Convert.Resting

/-!
Conversions that have nothing left to do. The second conversion of the scripts of a root finds each of
them as the first one has left it.
-/

namespace ClassLift

open Forest

variable {options : Options} {f g e : Forest} {root s d : Ref} {rs ss : List Ref} {log : Log}
variable {w : Workspace} {m : MemberAssignment} {summary total : Summary}

/- Whole conversions -/

theorem Summary.quiet_add (s t : Summary) : (s.add t).quiet = s.quiet.add t.quiet := rfl

theorem Passes.again (h : Passes options ss f log summary g) (kinds : ∀ s ∈ ss, g.kind? s = some .script)
    (again : ∀ {s e w}, s ∈ ss → Pass options f g log s e w → w.findings ⊆ summary.findings →
      g.convertScript options s = (.ok w.summary.quiet, g)) :
    convertScripts options ss total g = (.ok (total.add summary.quiet), g) := by
  induction h generalizing total
  case nil =>
    change _ = (Except.ok (total.add {}), _)
    rw [Summary.add_zero, convertScripts]
  case cons s ss f g w log summary valid formed apart run rest ih =>
    have first := again (by simp) (rest.first valid formed apart run) (List.subset_append_left _ _)
    rw [convertScripts, if_pos (isKind_iff.mpr (kinds s (by simp))), first, Summary.quiet_add,
      ← Summary.add_assoc]
    refine ih (fun s hs => kinds s (by simp [hs])) fun {s e w} hs p sub => ?_
    have p := p.later valid formed run (apart s hs).left (apart s hs).right
    exact again (by simp [hs]) p fun x hx => List.mem_append_right _ (sub hx)

-- What is not a script makes no difference, as long as nothing is changed.
theorem convertScripts_filter
    (same : ∀ r ∈ rs, g.kind? r = some .script → (g.convertScript options r).2 = g) :
    convertScripts options rs total g =
      convertScripts options (rs.filter (g.isKind · .script)) total g := by
  induction rs generalizing total
  case nil => rfl
  case cons r rs ih =>
    have ih {total : Summary} := @ih total fun x hx => same x (by simp [hx])
    rw [convertScripts, List.filter_cons]
    by_cases hk : g.isKind r .script
    case neg => rw [if_neg hk, if_neg hk, ih]
    case pos =>
      have here := same r (by simp) (isKind_iff.mp hk)
      rw [if_pos hk, if_pos hk, convertScripts, if_pos hk]
      rcases hr : g.convertScript options r with ⟨⟨e⟩ | ⟨t⟩, g'⟩
      case error => rfl
      case ok =>
        obtain rfl : g' = g := by simpa [hr] using here
        exact ih

theorem convert_eq_convertScripts (options : Options)
    (h : g.kind? root = some .script ∨ g.kind? root = some .root) :
    ∃ rs, rs.filter (g.isKind · .script) = g.scripts root ∧
      g.convert options root = convertScripts options rs {} g := by
  rcases h with hk | hk
  case inl =>
    have isScript := isKind_iff.mpr hk
    refine ⟨[root], by simp [scripts_of_script hk, isScript], ?_⟩
    rw [convert, if_pos isScript, convertScripts, if_pos isScript]
    rcases g.convertScript options root with ⟨⟨e⟩ | ⟨t⟩, g'⟩
    case error => rfl
    case ok => simp [convertScripts, Summary.zero_add]
  case inr =>
    have other : ¬g.isKind root .script := by simp [isKind_iff, hk]
    refine ⟨g.children root, (scripts_of_root hk).symm, ?_⟩
    rw [convert, if_neg other, (expectKind_eq_ok (u := ())).mpr hk]

-- The scripts are the same afterwards.
theorem Converts.scripts_eq (k : Converts f g (f.scripts root) log) (v : f.Valid)
    (h : f.kind? root = some .script ∨ f.kind? root = some .root) : g.scripts root = f.scripts root := by
  rcases h with hk | hk <;> have hk' := (k.ext.kind? (has_of_kind? hk)).trans hk
  case inl => rw [scripts_of_script hk, scripts_of_script hk']
  case inr =>
    rw [scripts_of_root hk, scripts_of_root hk', k.children_root v hk]
    exact List.filter_congr fun s hs => k.ext.isKind (v.has_child hs) _

section Twice

variable (v : f.Valid) (shaped : f.isShaped) (ok : f.convert options root = (.ok summary, g))
include v shaped ok

theorem convert_twice_eq : ∃ rs, rs.filter (g.isKind · .script) = f.scripts root ∧
    g.convert options root = convertScripts options rs {} g := by
  have k := converts_of_ok v shaped ok
  have kind := root_of_ok ok
  have has := kind.elim has_of_kind? has_of_kind?
  obtain ⟨rs, scripts, e⟩ := convert_eq_convertScripts options (k.ext.kind? has ▸ kind)
  exact ⟨rs, scripts.trans (k.scripts_eq v kind), e⟩

theorem convert_again
    (again : ∀ {s e w}, s ∈ f.scripts root → Pass options f g (f.allChanges options root) s e w →
      w.findings ⊆ summary.findings → g.convertScript options s = (.ok w.summary.quiet, g)) :
    g.convert options root = (.ok summary.quiet, g) := by
  have k := converts_of_ok v shaped ok
  have passes := passes_of_ok v shaped ok
  obtain ⟨rs, scripts, e⟩ := convert_twice_eq v shaped ok
  have isScript {s : Ref} (hs : s ∈ f.scripts root) : s ∈ rs ∧ g.kind? s = some .script := by
    simpa [← scripts, isKind_iff] using hs
  rw [e, convertScripts_filter, scripts, passes.again (fun s hs => (isScript hs).right) again, Summary.zero_add]
  intro s hs hk
  have hs : s ∈ f.scripts root := scripts ▸ List.mem_filter.mpr ⟨hs, isKind_iff.mpr hk⟩
  obtain ⟨e, w, p, found⟩ := passes.pass hs
  rw [again hs p found]

end Twice

theorem codeChanges_le (ok : convertScripts options rs total f = (.ok summary, g)) :
    total.stats.codeChanges ≤ summary.stats.codeChanges := by
  induction rs generalizing total f
  case nil =>
    cases ok
    exact le_rfl
  case cons r rs ih =>
    rcases convertScripts_cons_ok ok with ⟨_, ok⟩ | ⟨_, w, _, ok⟩
    case inl => exact ih ok
    case inr => exact (Nat.le_add_right _ _).trans (ih ok)

-- If a conversion makes no change, its scripts are at rest.
theorem rests_of_unchanged (v : f.Valid) (ok : convertScripts options rs total f = (.ok summary, g))
    (unchanged : summary.stats.codeChanges = total.stats.codeChanges) (hs : s ∈ rs)
    (hk : f.kind? s = some .script) (u : f.IsUnambiguous (f.postorder s)) : Rests f options s := by
  induction rs generalizing total
  case nil => cases hs
  case cons r rs ih =>
    rcases convertScripts_cons_ok ok with ⟨hr, ok⟩ | ⟨_, w, run, ok⟩
    case inl =>
      have ne : s ≠ r := fun e => hr (e ▸ isKind_iff.mpr hk)
      exact ih ok unchanged ((List.mem_cons.mp hs).resolve_left ne)
    case inr =>
      obtain ⟨hr, run⟩ := run_of_ok v run
      have count := run.codeChanges_eq v (has_of_kind? hr) (List.append_nil _).symm
      have le : total.stats.codeChanges + w.stats.codeChanges ≤ summary.stats.codeChanges :=
        codeChanges_le ok
      have none : f.changes options r = [] := List.length_eq_zero_iff.mp (by omega)
      have forest := (run.idle v none).forest
      rw [none] at run
      rcases List.mem_cons.mp hs with rfl | hs
      case inl => exact run.rests v hk u
      case inr =>
        rw [forest] at ok
        refine ih ok ?_ hs
        rw [unchanged]
        simp only [Summary.add, Stats.add, Workspace.summary]
        omega

-- A conversion without findings has left nothing to do, unless a class has overtaken a method that has
-- been left.
theorem clean_is_final_iff (h : f.check = .ok ()) (shaped : f.isShaped)
    (ok : f.convert options root = (.ok summary, g)) (clean : summary.findings = []) :
    (∃ summary', g.convert options root = (.ok summary', g) ∧ summary'.stats.codeChanges = 0 ∧
      summary'.findings = []) ↔
    ∀ script ∈ f.scripts root, ∀ m d, ¬Overtakes f g options script (f.allChanges options root) m d := by
  have v := valid_of_check h
  have passes := passes_of_ok v shaped ok
  have silent {s : Ref} {e : Forest} {w : Workspace} (p : Pass options f g (f.allChanges options root) s e w)
      (found : w.findings ⊆ summary.findings) : w.findings = [] ∧ e.IsUnambiguous (e.postorder s) := by
    have silent : w.findings = [] := List.subset_nil.mp (clean ▸ found)
    exact ⟨silent, p.finished.defined.isUnambiguous (by simp [silent])⟩
  constructor
  case mp =>
    rintro ⟨summary', again, unchanged, -⟩ s hs
    obtain ⟨e, w, p, found⟩ := passes.pass hs
    have u := (silent p found).right
    obtain ⟨rs, scripts, e⟩ := convert_twice_eq v shaped ok
    have ⟨mem, isScript⟩ := List.mem_filter.mp (scripts ▸ hs)
    have rests := rests_of_unchanged passes.converts.valid (e.symm.trans again) unchanged mem
      (isKind_iff.mp isScript) (p.isUnambiguous u)
    exact (p.rests_iff v u (shaped_of_isShaped shaped s)).mp rests
  case mpr =>
    intro none
    have again : g.convert options root = (.ok summary.quiet, g) := by
      refine convert_again v shaped ok fun {s e w} hs p found => ?_
      have ⟨silent, u⟩ := silent p found
      have shaped := shaped_of_isShaped shaped s
      exact p.again u ((p.rests_iff v u shaped).mpr (none s hs))
        (p.finished.survey_silent p.valid u (p.before.shaped v shaped) silent)
    exact ⟨summary.quiet, again, rfl, clean⟩

theorem sample_clean :
    sample.isShaped ∧ (sample.foldScript {} (some 0)).2.findings = [] ∧
      Log.statements (sample.allChanges {} (some 0)) = [some 5] :=
  ⟨rfl, rfl, rfl⟩

-- Both statements of the sample are done with: one is a class, and the other one has been merged.
theorem clean_is_final_sample :
    let g := (sample.foldScript {} (some 0)).2.forest
    sample.isShaped ∧ (sample.foldScript {} (some 0)).2.findings = [] ∧
      ∃ summary, g.convert {} (some 0) = (.ok summary, g) ∧ summary.stats.codeChanges = 0 ∧
        summary.findings = [] := by
  have ⟨shaped, clean, merged⟩ := sample_clean
  have final := clean_is_final_iff sample_check shaped sample_convert clean
  refine ⟨shaped, clean, final.mpr fun script hs m d o => ?_⟩
  obtain rfl : script = some 0 := List.mem_singleton.mp hs
  obtain ⟨className, candidate, -⟩ := o.method
  have statement := candidate.method.view.statement
  have direct : m.statement ∈ [some 1, some 5] := o.direct
  rcases List.mem_pair.mp direct with e | e
  · cases e ▸ statement
  · exact o.left (by simp [e, merged])

-- The class `C` is in a method of `A`, and a method of `C` comes before it.
def carried : Forest where
  nodes := #[
    { kind := .script, data := some 0, children := [some 1, some 5, some 14] },
    { kind := .classDefinition, parent := some 0, children := [some 2, some 3, some 4] },
    { kind := .identifier, data := some 0, parent := some 1 },
    { kind := .empty, parent := some 1 },
    { kind := .classMembers, parent := some 1 },
    { kind := .expressionStatement, parent := some 0, children := [some 6] },
    { kind := .assignment, parent := some 5, children := [some 7, some 10] },
    { kind := .propertyAccess, parent := some 6, children := [some 8, some 9] },
    { kind := .identifier, data := some 1, parent := some 7 },
    { kind := .identifier, data := some 2, parent := some 7 },
    { kind := .function, parent := some 6, children := [some 11, some 12, some 13] },
    { kind := .empty, parent := some 10 },
    { kind := .parameterList, parent := some 10 },
    { kind := .block, parent := some 10 },
    { kind := .expressionStatement, parent := some 0, children := [some 15] },
    { kind := .assignment, parent := some 14, children := [some 16, some 19] },
    { kind := .propertyAccess, parent := some 15, children := [some 17, some 18] },
    { kind := .identifier, data := some 0, parent := some 16 },
    { kind := .identifier, data := some 3, parent := some 16 },
    { kind := .function, parent := some 15, children := [some 20, some 21, some 22] },
    { kind := .empty, parent := some 19 },
    { kind := .parameterList, parent := some 19 },
    { kind := .block, parent := some 19, children := [some 23] },
    { kind := .classDefinition, parent := some 22, children := [some 24, some 25, some 26] },
    { kind := .identifier, data := some 1, parent := some 23 },
    { kind := .empty, parent := some 23 },
    { kind := .classMembers, parent := some 23 }]
  texts := #["A", "C", "f", "g"]
  files := #["a.js"]

theorem carried_check : carried.check = .ok () ∧ carried.isShaped :=
  ⟨(check_eq_checkChains _).trans rfl, rfl⟩

theorem carried_convert :
    let w := (carried.foldScript {} (some 0)).2
    carried.convert {} (some 0) = (.ok { findings := w.findings, stats := w.stats }, w.forest) :=
  convert_of_foldScript carried_check.left rfl rfl

theorem carried_run :
    let w := (carried.foldScript {} (some 0)).2
    w.findings = [] ∧ w.forest.isKind (some 0) .script ∧
      (w.forest.foldScript {} (some 0)).2.stats.codeChanges = 1 ∧
      w.forest.size = 28 ∧ (w.forest.foldScript {} (some 0)).2.forest.size = 29 :=
  ⟨rfl, rfl, rfl, rfl, rfl⟩

-- The first conversion is clean, but it moves `C` to the front, so that the second one merges its method.
theorem carried_again :
    carried.check = .ok () ∧ carried.isShaped ∧
    ∃ summary g, carried.convert {} (some 0) = (.ok summary, g) ∧ summary.findings = [] ∧
      ∃ summary' g', g.convert {} (some 0) = (.ok summary', g') ∧
        summary'.stats.codeChanges = 1 ∧ g' ≠ g := by
  have ⟨check, shaped⟩ := carried_check
  have ⟨clean, script, changed, size, size'⟩ := carried_run
  have v := (converts_of_ok (valid_of_check check) shaped carried_convert).valid
  refine ⟨check, shaped, _, _, carried_convert, clean, _, _, (convert_of_script v script).trans rfl, changed, ?_⟩
  intro same
  rw [same, size] at size'
  cases size'

-- No merge moves a definition if there is none inside of a function.
theorem Pass.unmoved (p : Pass options f g log s e w) (u : e.IsUnambiguous (e.postorder s))
    (flat : ∀ r d, f.Contains s r → f.kind? r = some .function → f.Contains r d → d ≠ r →
      ¬f.isDefinition d)
    (m : MemberAssignment) (member : Ref) (hm : .merge m member ∈ e.changes options s)
    (hd : d ∈ e.definitions (e.postorder s)) : ¬e.Contains m.value d := by
  intro hc
  have h := p.finished
  have was := h.progress.merged hm
  have value := has_of_kind? was.value
  have statement := (h.mem_postorder p.valid).mp was.visited
  have inScript := p.before.contains.mp (statement.trans (was.view.contains_value p.valid value.ne_none))
  have hc := (p.before.agree.contains value.ne_none inScript).mp hc
  refine flat m.value d inScript (p.before.kind? inScript ▸ was.value) hc ?_ ?_
  · rintro rfl
    exact h.not_taken_of_definition p.valid u hd (Log.mem_taken.mpr ⟨m, member, hm, .inr rfl⟩)
  · rw [← p.before.isDefinition_eq (inScript.trans hc)]
    exact (mem_definitions.mp hd).right

-- A conversion of scripts that define no classes inside of functions is the last one that changes anything,
-- also if classes are unknown. The next one finds the same.
theorem stable_without_local_classes (h : f.check = .ok ()) (shaped : f.isShaped)
    (flat : ∀ r d, f.Contains root r → f.kind? r = some .function → f.Contains r d → d ≠ r →
      ¬f.isDefinition d)
    (ok : f.convert options root = (.ok summary, g))
    (distinct : ∀ finding ∈ summary.findings, finding.problem ≠ .classRedefined) :
    g.convert options root = (.ok {
      findings := summary.findings
      stats.classesRegistered := summary.stats.classesRegistered }, g) := by
  have v := valid_of_check h
  refine convert_again v shaped ok fun {s e w} hs p found => ?_
  have u := p.finished.defined.isUnambiguous fun finding hf => distinct finding (found hf)
  have below := contains_of_mem_scripts v hs
  have unmoved m member hm d (hd : d ∈ e.definitions (e.postorder s)) :=
    p.unmoved u (fun r d hr => flat r d (below.trans hr)) m member hm hd
  have shaped := shaped_of_isShaped shaped s
  have shaped' := p.before.shaped v shaped
  have rests := (p.finished.rests_iff p.valid u shaped').mpr fun m d =>
    p.finished.not_overtakes p.valid shaped' unmoved
  exact p.again u ((p.after.rests_iff p.finished.progress.valid).mpr rests)
    (p.finished.survey_unmoved p.valid u shaped' unmoved)

-- The sample with its statements in the other order.
def early : Forest :=
  { sample with nodes := sample.nodes.modify 0 fun n => { n with children := [some 5, some 1] } }

theorem early_check : early.check = .ok () ∧ early.isShaped :=
  ⟨(check_eq_checkChains _).trans rfl, rfl⟩

theorem early_convert :
    let w := (early.foldScript {} (some 0)).2
    early.convert {} (some 0) = (.ok { findings := w.findings, stats := w.stats }, w.forest) :=
  convert_of_foldScript early_check.left rfl rfl

theorem early_run :
    let w := (early.foldScript {} (some 0)).2
    w.findings = [.at early .unknownClass (some 7) "A"] ∧ w.stats.classesRegistered = 1 ∧
      early.size = 16 ∧ w.forest.size = 22 :=
  ⟨rfl, rfl, rfl, rfl⟩

theorem early_flat (r d : Ref) (hk : early.kind? r = some .function) (hc : early.Contains r d) (hn : d ≠ r) :
    ¬early.isDefinition d := by
  have flat : ∀ i < early.size, early.isKind (some i) .function → ∀ j < early.size,
      early.isDefinition (some j) → early.isWithin (some j) (some i) → j = i := by
    decide
  have hr := has_of_kind? hk
  obtain ⟨j, hj, rfl⟩ := has_iff.mp (hc.has hr)
  have within := ((valid_of_check early_check.left).isWithin_iff hr.ne_none).mpr hc
  obtain ⟨i, hi, rfl⟩ := has_iff.mp hr
  exact fun definition => hn (congrArg some (flat i hi (isKind_iff.mpr hk) j hj definition within))

-- The method comes too early for its class, and again in the second conversion.
theorem stable_without_local_classes_early :
    let g := (early.foldScript {} (some 0)).2.forest
    early.isShaped ∧ g ≠ early ∧ g.convert {} (some 0) = (.ok {
      findings := [.at early .unknownClass (some 7) "A"]
      stats.classesRegistered := 1 }, g) := by
  have ⟨check, shaped⟩ := early_check
  have ⟨findings, registered, size, size'⟩ := early_run
  have again := stable_without_local_classes check shaped (fun r d _ => early_flat r d) early_convert
    fun finding hf => by simp_all [Finding.at]
  rw [findings, registered] at again
  refine ⟨shaped, fun same => ?_, again⟩
  rw [same, size] at size'
  cases size'

end ClassLift
