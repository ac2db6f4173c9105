import ClassLift.Proofs.Convert.Classes
import ClassLift.Proofs.Convert.Finished
import ClassLift.Proofs.Convert.Preservation

/-!
Definitions whose name is taken. They stay what they are, and where they are unless they are assigned
to another class: then they become a member of it.
-/

namespace ClassLift

open Forest

variable {options : Options} {f g h : Forest} {script root s t r : Ref} {ss done : List Ref}
variable {log log' : Log} {w : Workspace} {finding : Finding}
variable {summary : Summary}

-- A definition that is found again where it was, or in the member that its assignment has become.
inductive Stands (f g : Forest) (log : Log) (r : Ref) : Prop
  | same (parent : g.parent r = f.parent r)
  | moved {m : MemberAssignment} {member : Ref} (merged : .merge m member ∈ log)
    (value : m.value = r) (new : ¬f.Has member) (parent : g.parent r = member)

structure Rejected (f g : Forest) (script : Ref) (log : Log) (r : Ref) : Prop where
  kind   : f.kind? r = some .classDefinition ∨ f.kind? r = some .function
  before : f.Contains script r
  after  : g.Contains script r
  kept   : ∀ cls, .promotion r cls ∉ log
  stands : Stands f g log r

/- One script -/

-- A class or a function is not a part of a function.
theorem parent_not_function (v : f.Valid) (hf : f.isFormed (f.parent r))
    (hk : f.kind? r = some .classDefinition ∨ f.kind? r = some .function) :
    f.kind? (f.parent r) ≠ some .function := by
  intro hp
  have part := kind_of_part hf hp (v.mem_parent (has_of_kind? hp).ne_none)
  rcases hk with hk | hk <;> simp [hk] at part

theorem Progress.stands (p : Progress f done log w) (gathered : Gathered f done log w) (v : f.Valid)
    (s : f.Formed script) (hc : f.Contains script (f.parent r)) (hp : f.parent r ≠ none)
    (hk : f.kind? r = some .classDefinition ∨ f.kind? r = some .function)
    (kept : ∀ cls, .promotion r cls ∉ log) : Stands f w.forest log r := by
  have hr : log.cls? r = none := Log.cls?_eq_none.mpr fun ⟨cls, hm⟩ => kept cls hm
  have hu : log.cls? (f.parent r) = none := by
    refine Log.cls?_eq_none.mpr fun ⟨cls, hm⟩ => ?_
    exact parent_not_function v (s _ hc) hk (p.promoted hm).kind
  by_cases ht : r ∈ log.taken
  case neg => exact .same (p.parent_kept v hp ht hr hu)
  case pos =>
    obtain ⟨m, member, hm, e | e⟩ := Log.mem_taken.mp ht
    case inl =>
      have statement := (p.merged hm).view.statement
      simp [e, statement] at hk
    case inr =>
      have member := gathered.members hm
      refine .moved hm e.symm member.new (p.valid.parent_eq ?_)
      rw [member.below, e, List.mem_singleton]

theorem rejected_of_run (v : f.Valid) (s : f.Formed script)
    (ok : f.runScript options script = (.ok (), w)) (hm : finding ∈ w.findings)
    (hp : finding.problem = .classRedefined) :
    Rejected f w.forest script (f.changes options script) finding.node := by
  have done := finished_of_ok v s ok
  have p := done.progress
  have has := has_of_kind? done.kind
  have hm : finding ∈ w.findings.filter (·.problem = .classRedefined) := by simp [hm, hp]
  rw [done.defined.findings] at hm
  obtain ⟨r, hr, hf⟩ := List.mem_filterMap.mp hm
  obtain ⟨name, hn, rfl⟩ := Option.map_eq_some_iff.mp hf
  show Rejected f w.forest script _ r
  obtain ⟨hr, repeated⟩ := List.mem_filter.mp hr
  obtain ⟨visited, isDefinition⟩ := mem_definitions.mp hr
  have hc : f.Contains script r := (v.mem_postorder has.ne_none).mp visited
  have hk : f.kind? r = some .classDefinition ∨ f.kind? r = some .function :=
    (isDefinition_iff.mp isDefinition).imp_right (·.left)
  have kept (cls : Ref) : .promotion r cls ∉ f.changes options script := fun hm => by
    have ⟨_, _, first⟩ := (done.defined.promoted r).mp ⟨cls, hm⟩
    simp [first] at repeated
  have ne : r ≠ script := by
    rintro rfl
    simp [done.kind] at hk
  have above := hc.parent_of_ne ne
  refine ⟨hk, hc, (done.reached.old (hc.has has)).mpr ⟨hc, fun hl => ?_⟩, kept,
    p.stands done.gathered v s above (above.ne_none has.ne_none) hk kept⟩
  rcases done.reached.kind_of_lost p hl with ⟨-, cls, hm⟩ | ⟨hk', -⟩ | ⟨k, hk', hd⟩
  · exact kept cls hm
  · simp [hk'] at hk
  · rcases hk with hk | hk <;> cases hk.symm.trans hk' <;> cases hd

/- Scripts one after the other -/

-- The scripts that follow leave alone what has been found in one.
theorem Rejected.preserved (j : Rejected f g s log r) (k : Converts f g [s] log)
    (k' : Converts g h ss log') (v : f.Valid) (hs : f.Has s)
    (hss : ∀ t ∈ ss, f.Has t ∧ Apart f s t) : Rejected f h s (log ++ log') r := by
  have out {x : Ref} (hx : g.Contains s x) (t : Ref) (ht : t ∈ ss) : ¬g.Contains t x :=
    k.apart_after v (hss t ht).left (hss t ht).right x hx
  have has {x : Ref} (hx : g.Contains s x) : g.Has x := hx.has (k.ext.has hs)
  have same : Agree g h s := .of_children k.valid k'.valid (k.ext.has hs) fun x hx =>
    (k'.apart (has hx) (out hx)).left
  have parent : h.parent r = g.parent r := (k'.apart (has j.after) (out j.after)).right
  refine ⟨j.kind, j.before, (same.contains hs.ne_none .refl).mpr j.after, fun cls hm => ?kept, ?stands⟩
  case kept =>
    rcases List.mem_append.mp hm with hm | hm
    · exact j.kept cls hm
    · obtain ⟨t, ht, w⟩ := k'.within _ hm
      exact out j.after t ht w
  case stands =>
    cases j.stands
    case same e => exact .same (parent.trans e)
    case moved hm value new e => exact .moved (List.mem_append_left _ hm) value new (parent.trans e)

-- What is found in a script is so, too, before the script that comes first.
theorem Rejected.original (j : Rejected g h t log' r) (k : Converts f g [s] log) (v : f.Valid)
    (ht : f.Has t) (apart : Apart f s t) : Rejected f h t (log ++ log') r := by
  have hr := ((k.agree v ht apart).contains ht.ne_none .refl).mp j.before
  have out (s' : Ref) (hs : s' ∈ [s]) : ¬f.Contains s' r := fun hc =>
    apart r (List.mem_singleton.mp hs ▸ hc) hr
  have hf := hr.has ht
  refine ⟨k.ext.kind? hf ▸ j.kind, hr, j.after, fun cls hm => ?kept, ?stands⟩
  case kept =>
    rcases List.mem_append.mp hm with hm | hm
    · obtain ⟨s', hs, w⟩ := k.within _ hm
      exact out s' hs w
    · exact j.kept cls hm
  case stands =>
    cases j.stands
    case same e => exact .same (e.trans (k.apart hf out).right)
    case moved hm value new e =>
      exact .moved (List.mem_append_right _ hm) value (fun hn => new (k.ext.has hn)) e

theorem Passes.rejected (h : Passes options ss f log summary g) (hm : finding ∈ summary.findings)
    (hp : finding.problem = .classRedefined) :
    ∃ s ∈ ss, Rejected f g s log finding.node := by
  induction h
  case nil => cases hm
  case cons s ss f g w log summary valid formed apart run rest ih =>
    have k := converts_script valid formed run
    rcases List.mem_append.mp hm with hm | hm
    case inl =>
      have hs := has_of_kind? (run_of_ok valid run).left
      have first := rejected_of_run valid formed run hm hp
      exact ⟨s, by simp, first.preserved k rest.converts valid hs apart⟩
    case inr =>
      obtain ⟨t, ht, j⟩ := ih hm
      exact ⟨t, by simp [ht], j.original k valid (apart t ht).left (apart t ht).right⟩

-- A definition whose name is taken is reached as before and stays what it is. Its parent is the same
-- unless the function is assigned to a class: then a merge has made it a member of that class.
theorem rejected_stays (h : f.check = .ok ()) (shaped : f.isShaped)
    (ok : f.convert options root = (.ok summary, g)) (hm : finding ∈ summary.findings)
    (hp : finding.problem = .classRedefined) :
    let r := finding.node
    let log := f.allChanges options root
    g.kind? r = f.kind? r ∧ (∀ cls, .promotion r cls ∉ log) ∧
    (∃ script ∈ f.scripts root, f.Reaches script r ∧ g.Reaches script r) ∧
    (g.parent r = f.parent r ∨ ∃ m member, .merge m member ∈ log ∧ m.IsView f ∧ m.value = r ∧
      ¬f.Has member ∧ g.parent r = member) := by
  have v := valid_of_check h
  have passes := passes_of_ok v shaped ok
  have k := passes.converts
  obtain ⟨script, hs, j⟩ := passes.rejected hm hp
  have has := has_of_kind? (kind?_of_mem_scripts hs)
  have hf := j.before.has has
  refine ⟨k.ext.kind? hf, j.kept, ⟨script, hs, ?before, ?after⟩, ?parent⟩
  case before => exact (v.reaches_iff has.ne_none hf.ne_none).mpr j.before
  case after => exact (k.valid.reaches_iff has.ne_none hf.ne_none).mpr j.after
  case parent =>
    cases j.stands
    case same e => exact .inl e
    case moved hm value new e =>
      obtain ⟨_, -, w⟩ := k.within _ hm
      exact .inr ⟨_, _, hm, w.right, value, new, e⟩

theorem reassigned_convert :
    let w := (reassigned.foldScript {} (some 0)).2
    reassigned.convert {} (some 0) = (.ok { findings := w.findings, stats := w.stats }, w.forest) :=
  convert_of_foldScript reassigned_check.left rfl rfl

theorem reassigned_run :
    let w := (reassigned.foldScript {} (some 0)).2
    w.findings = [.at reassigned .classRedefined (some 19) "A.B"] ∧
      w.forest.parent (some 19) = some 36 ∧ w.forest.kind? (some 36) = some .memberFunction :=
  ⟨rfl, rfl, rfl⟩

theorem rejected_stays_reassigned :
    reassigned.isShaped ∧
    ∃ m member, .merge m member ∈ reassigned.allChanges {} (some 0) ∧ m.value = some 19 := by
  have ⟨findings, parent, _⟩ := reassigned_run
  have hm : Finding.at reassigned .classRedefined (some 19) "A.B" ∈
      (reassigned.foldScript {} (some 0)).2.findings := by simp [findings]
  have ⟨_, _, _, stands⟩ :=
    rejected_stays reassigned_check.left reassigned_check.right reassigned_convert hm rfl
  rcases stands with same | ⟨m, member, merged, _, value, _⟩
  case inl => cases parent.symm.trans same
  case inr => exact ⟨reassigned_check.right, m, member, merged, value⟩

-- The second `A.B` is found, and then moved into `A`.
theorem rejected_moves :
    reassigned.check = .ok () ∧ reassigned.isShaped ∧
    ∃ summary g finding, reassigned.convert {} (some 0) = (.ok summary, g) ∧
      finding ∈ summary.findings ∧ finding.problem = .classRedefined ∧
      g.kind? (g.parent finding.node) = some .memberFunction ∧
      g.parent finding.node ≠ reassigned.parent finding.node := by
  have ⟨findings, parent, kind⟩ := reassigned_run
  refine ⟨reassigned_check.left, reassigned_check.right, _, _,
    .at reassigned .classRedefined (some 19) "A.B", reassigned_convert, by simp [findings], rfl, ?_, ?_⟩
  · exact parent ▸ kind
  · exact parent ▸ by decide

end ClassLift
