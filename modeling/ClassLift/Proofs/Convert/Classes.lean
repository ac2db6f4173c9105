import ClassLift.Proofs.Convert.Reached
import ClassLift.Proofs.Convert.Traversal

/-!
The classes that are known at the end of a run.
-/

namespace ClassLift

open Forest

variable {f : Forest} {options : Options} {script : Ref} {w : Workspace}

-- The first definition of a name is known, and only it. A constructor becomes a class unless it
-- repeats a name, and each repetition is found where it is. What is known are classes of the script.
theorem first_definition_wins (h : f.check = .ok ()) (shaped : f.isShaped)
    (ok : f.runScript options script = (.ok (), w)) :
    let order := f.postorder script
    let log := f.changes options script
    (∀ name, w.registry.lookup? name = (f.firstOf? order name).map log.image) ∧
    w.registry.entries = ((f.definitions order).filter (f.isFirst order)).filterMap
      (fun r => (f.nearestName? r).map (·, log.image r)) ∧
    (∀ r cls, .promotion r cls ∈ log → r ∈ f.definitions order ∧ f.kind? r = some .function) ∧
    (∀ r ∈ f.definitions order, f.kind? r = some .function →
      ((∃ cls, .promotion r cls ∈ log) ↔ f.nearestName? r = none ∨ f.isFirst order r) ∧
      (w.forest.Reaches script r ↔ ¬∃ cls, .promotion r cls ∈ log)) ∧
    w.findings.filter (·.problem = .classRedefined) =
      ((f.definitions order).filter (f.isRepeated order)).filterMap
        (fun r => (f.nearestName? r).map (Finding.at f .classRedefined r)) ∧
    (∀ r cls, .promotion r cls ∈ log →
      w.forest.kind? cls = some .classDefinition ∧ w.forest.Reaches script cls) ∧
    ∀ name cls, (name, cls) ∈ w.registry.entries →
      w.forest.kind? cls = some .classDefinition ∧ w.forest.Reaches script cls := by
  have v := valid_of_check h
  obtain ⟨hs, run⟩ := run_of_ok v ok
  have has := has_of_kind? hs
  have order : f.postorder script = f.postorder script ++ [] := by simp
  have p := run.progress v has order
  have d := run.defined v has order
  have reached := run.reached v (shaped_of_isShaped shaped script).formed hs order
  have mem {r : Ref} : r ∈ f.postorder script ↔ f.Contains script r := v.mem_postorder has.ne_none
  have reaches {r : Ref} {k : Kind} (hk : w.forest.kind? r = some k) :
      w.forest.Reaches script r ↔ w.forest.Contains script r :=
    p.valid.reaches_iff has.ne_none (has_of_kind? hk).ne_none
  refine ⟨d.lookup, d.entries, fun r cls hm => ?constructors, fun r hr hk => ⟨?promoted, ?stays⟩,
    d.findings, fun r cls hm => ?classes, fun name cls hm => ?registered⟩
  case constructors =>
    obtain ⟨hr, hk, _⟩ := (d.promoted r).mp ⟨cls, hm⟩
    exact ⟨hr, hk⟩
  case promoted =>
    have unrepeated : f.isRepeated (f.postorder script) r = false ↔
        f.nearestName? r = none ∨ f.isFirst (f.postorder script) r := by
      cases hn : f.nearestName? r <;> simp [isRepeated, hn]
    rw [d.promoted r, and_iff_right hr, and_iff_right hk, unrepeated]
  case stays =>
    have hf := has_of_kind? hk
    rw [reaches ((p.ext.kind? hf).trans hk), reached.old hf,
      and_iff_right (mem.mp (mem_definitions.mp hr).left), not_iff_not]
    constructor
    · intro hl
      rcases reached.kind_of_lost p hl with ⟨-, h⟩ | ⟨hk', -⟩ | ⟨k, hk', hd⟩
      · exact h
      · cases hk.symm.trans hk'
      · cases hk.symm.trans hk'
        cases hd
    · rintro ⟨cls, hm⟩
      exact ⟨_, hm, .inl rfl⟩
  case classes =>
    have hk := (p.promoted hm).cls
    exact ⟨hk, (reaches hk).mpr (reached.new hm)⟩
  case registered =>
    obtain ⟨r, hr, rfl⟩ := d.of_mem_entries hm
    obtain ⟨hk, hc⟩ := reached.registered p d (fun r => mem.mp) hr
    exact ⟨hk, (reaches hk).mpr hc⟩

-- The constructors `A`, `A.B`, and `A.B` again.
def reassigned : Forest where
  nodes := #[
    { kind := .script, data := some 0, children := [some 1, some 5, some 14] },
    { kind := .function, doc := some 0, parent := some 0, children := [some 2, some 3, some 4] },
    { kind := .identifier, data := some 0, parent := some 1 },
    { kind := .parameterList, parent := some 1 },
    { kind := .block, parent := some 1 },
    { kind := .expressionStatement, parent := some 0, children := [some 6] },
    { kind := .assignment, parent := some 5, children := [some 7, some 10] },
    { kind := .propertyAccess, parent := some 6, children := [some 8, some 9] },
    { kind := .identifier, data := some 0, parent := some 7 },
    { kind := .identifier, data := some 1, parent := some 7 },
    { kind := .function, doc := some 0, parent := some 6, children := [some 11, some 12, some 13] },
    { kind := .empty, parent := some 10 },
    { kind := .parameterList, parent := some 10 },
    { kind := .block, parent := some 10 },
    { kind := .expressionStatement, parent := some 0, children := [some 15] },
    { kind := .assignment, parent := some 14, children := [some 16, some 19] },
    { kind := .propertyAccess, parent := some 15, children := [some 17, some 18] },
    { kind := .identifier, data := some 0, parent := some 16 },
    { kind := .identifier, data := some 1, parent := some 16 },
    { kind := .function, doc := some 0, parent := some 15, children := [some 20, some 21, some 22] },
    { kind := .empty, parent := some 19 },
    { kind := .parameterList, parent := some 19 },
    { kind := .block, parent := some 19 }]
  texts := #["A", "B"]
  files := #["a.js"]
  docs := #[.constructor none none]

theorem reassigned_check : reassigned.check = .ok () ∧ reassigned.isShaped :=
  ⟨(check_eq_checkChains _).trans rfl, rfl⟩

theorem reassigned_runScript :
    reassigned.runScript {} (some 0) = (.ok (), (reassigned.foldScript {} (some 0)).2) := by
  rw [runScript_eq_foldScript (valid_of_check reassigned_check.left)]
  exact Prod.ext rfl rfl

-- The first `A.B` becomes the class of this name. The second one is found, and still there at the end.
theorem first_definition_wins_reassigned :
    let w := (reassigned.foldScript {} (some 0)).2
    let log := reassigned.changes {} (some 0)
    reassigned.check = .ok () ∧ reassigned.isShaped ∧
    reassigned.definitions (reassigned.postorder (some 0)) = [some 1, some 10, some 19] ∧
    w.registry.lookup? "A.B" = some (log.image (some 10)) ∧
    (∃ cls, .promotion (some 10) cls ∈ log) ∧ ¬w.forest.Reaches (some 0) (some 10) ∧
    (¬∃ cls, .promotion (some 19) cls ∈ log) ∧ w.forest.Reaches (some 0) (some 19) ∧
    w.findings.filter (·.problem = .classRedefined) = [.at reassigned .classRedefined (some 19) "A.B"] := by
  obtain ⟨check, shaped⟩ := reassigned_check
  have definitions : reassigned.definitions (reassigned.postorder (some 0)) = [some 1, some 10, some 19] := by
    rfl
  have ⟨lookup, _, _, constructors, findings, _⟩ := first_definition_wins check shaped reassigned_runScript
  have ⟨promoted, stays⟩ := constructors (some 10) (by simp [definitions]) rfl
  have ⟨promoted', stays'⟩ := constructors (some 19) (by simp [definitions]) rfl
  have first := promoted.mpr (.inr rfl)
  have second := promoted'.not.mpr (by decide)
  exact ⟨check, shaped, definitions, (lookup "A.B").trans rfl, first, stays.not.mpr (not_not_intro first),
    second, stays'.mpr second, findings.trans rfl⟩

end ClassLift
