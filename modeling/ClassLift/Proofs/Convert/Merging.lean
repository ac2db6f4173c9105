import ClassLift.Proofs.Convert.Belonging
import ClassLift.Proofs.Convert.Members
import ClassLift.Proofs.Convert.Traversal

/-!
What a run merges: exactly the statements that belong to a class, each into that class, and in the
order of the script.
-/

namespace ClassLift

open Forest

variable {f : Forest} {options : Options} {script r : Ref} {done rest : List Ref} {log : Log}
variable {w : Workspace} {m : MemberAssignment} {member : Ref}

-- Changes are made where the run is.
theorem Run.sites_sublist (run : Run options f done log w) (v : f.Valid) (hs : f.Has script)
    (h : f.postorder script = done ++ rest) : (log.map Change.site).Sublist done := by
  refine run.invariant (motive := fun done log _ => (log.map Change.site).Sublist done) v hs h .slnil
    fun {done log w r rest change w'} order run h visited => ?_
  rw [List.map_append]
  refine h.append ?_
  rcases visited.change_cases with rfl | ⟨cls, rfl⟩ | ⟨m, member, rfl, rfl⟩ <;> simp [Change.site]

theorem Log.statements_sublist (log : Log) : log.statements.Sublist (log.map Change.site) := by
  induction log
  case nil => exact .slnil
  case cons c log ih =>
    cases c
    case promotion => exact ih.cons _
    case merge => exact ih.cons_cons _

theorem Run.statements_sublist (run : Run options f done log w) (v : f.Valid) (hs : f.Has script)
    (h : f.postorder script = done ++ rest) : log.statements.Sublist done :=
  log.statements_sublist.trans (run.sites_sublist v hs h)

theorem WasMerged.mem_children {g : Forest} (h : WasMerged f done g m member) (v : f.Valid)
    (s : f.Shaped script) (hs : f.kind? script = some .script) (hc : f.Contains script m.statement) :
    m.statement ∈ f.children script :=
  s.mem_children_script v hs hc (by simp [h.view.statement]) h.onScript

-- All that a script loses are the statements that have been merged.
theorem Progress.children_script (p : Progress f done log w) (v : f.Valid)
    (hs : f.kind? script = some .script) : w.forest.children script =
      ((f.children script).filter (· ∉ log.statements)).map log.image := by
  have taken : (f.children script).filter (· ∉ log.taken) =
      (f.children script).filter (· ∉ log.statements) := by
    refine List.filter_congr fun x hx => decide_eq_decide.mpr <| not_congr ?_
    rw [Log.mem_taken, Log.mem_statements]
    constructor
    case mpr => exact fun ⟨m, member, hm, e⟩ => ⟨m, member, hm, .inl e.symm⟩
    case mp =>
      rintro ⟨m, member, hm, rfl | rfl⟩
      · exact ⟨m, member, hm, rfl⟩
      · have e := (v.parent_eq hx).symm.trans ((p.merged hm).parent_value v)
        cases hs.symm.trans (e ▸ (p.merged hm).view.assignment.right)
  rw [p.contents (has_of_kind? hs), Log.contents, p.cls?_none_of_kind hs (by simp), taken,
    p.members_nil (has_of_kind? hs) (.inr (by simp [hs]))]
  simp

-- Exactly the statements that belong to a class are merged, and the others stay. Each class has the
-- members that it was defined with, and after them those that name it, in the order of the script.
theorem merges_exact (h : f.check = .ok ()) (shaped : f.isShaped)
    (ok : f.runScript options script = (.ok (), w)) :
    let order := f.postorder script
    let log := f.changes options script
    (∀ m : MemberAssignment, m.statement ∈ f.children script →
      ((∃ member, .merge m member ∈ log) ↔
        ∃ className name, m.Belongs f options (f.before script m.statement) log className name)) ∧
    (∀ m member, .merge m member ∈ log → m.statement ∈ f.children script ∧
      ¬w.forest.Reaches script m.statement ∧ IsMember f w.forest m member) ∧
    log.statements = (f.children script).filter (· ∈ log.statements) ∧
    w.forest.children script = ((f.children script).filter (· ∉ log.statements)).map log.image ∧
    ∀ className cls, (className, cls) ∈ w.registry.entries → ∃ r own,
      f.firstOf? order className = some r ∧ log.image r = cls ∧ OwnMembers f w.forest log r own ∧
      w.forest.children (w.forest.members cls) = own ++ log.membersOf f className := by
  have v := valid_of_check h
  obtain ⟨hs, run⟩ := run_of_ok v ok
  have s := shaped_of_isShaped shaped script
  have has := has_of_kind? hs
  have order : f.postorder script = f.postorder script ++ [] := by simp
  have p := run.progress v has order
  have d := run.defined v has order
  have reached := run.reached v s.formed hs order
  have gathered := run.gathered v s.formed hs order
  have mem {r : Ref} : r ∈ f.postorder script ↔ f.Contains script r := v.mem_postorder has.ne_none
  have direct {m : MemberAssignment} {member : Ref}
      (hm : .merge m member ∈ f.changes options script) : m.statement ∈ f.children script :=
    (p.merged hm).mem_children v s hs (mem.mp (p.merged hm).visited)
  refine ⟨fun m hm => ?decided, fun m member hm => ⟨direct hm, ?removed, gathered.members hm⟩,
    ?order, p.children_script v hs, fun className cls hm => ?lists⟩
  case decided =>
    exact (run.decided v s hs order).merged hm <| mem.mpr (v.contains_child hm)
  case removed =>
    have hf := v.has_child (direct hm)
    rw [p.valid.reaches_iff has.ne_none hf.ne_none, reached.old hf]
    exact fun hc => hc.right ⟨_, hm, .inl rfl⟩
  case order =>
    refine eq_of_sublist (v.nodup_postorder has.ne_none) (run.statements_sublist v has order)
      (List.filter_sublist.trans (v.children_sublist_postorder has.ne_none)) fun x => ?_
    rw [List.mem_filter, decide_eq_true_iff, iff_and_self]
    intro hx
    obtain ⟨m, member, hm, rfl⟩ := Log.mem_statements.mp hx
    exact direct hm
  case lists =>
    obtain ⟨r, hr, rfl⟩ := d.of_mem_entries hm
    obtain ⟨own, ownMembers, children⟩ :=
      gathered.children_members p d v s.formed has (fun x => mem.mp) hr
    exact ⟨r, own, hr, rfl, ownMembers, children⟩

-- The statement of the sample belongs to the class that its function has become.
theorem merges_exact_sample :
    let log := sample.changes {} (some 0)
    let w := (sample.foldScript {} (some 0)).2
    sample.isShaped ∧ log.statements = [some 5] ∧
    (∃ (m : MemberAssignment) (className name : String), m.statement = some 5 ∧
      m.Belongs sample {} (sample.before (some 0) (some 5)) log className name) ∧
    w.forest.children (some 0) = ((sample.children (some 0)).filter (· ∉ log.statements)).map log.image := by
  have shaped : sample.isShaped := rfl
  have statements : (sample.changes {} (some 0)).statements = [some 5] := rfl
  obtain ⟨decided, merged, -, children, -⟩ := merges_exact sample_check shaped sample_run
  have mem : some 5 ∈ (sample.changes {} (some 0)).statements := by simp [statements]
  obtain ⟨m, member, hm, e⟩ := Log.mem_statements.mp mem
  obtain ⟨className, name, b⟩ := (decided m (merged m member hm).left).mp ⟨member, hm⟩
  exact ⟨shaped, statements, ⟨m, className, name, e, e ▸ b⟩, children⟩

end ClassLift
