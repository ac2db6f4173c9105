import ClassLift.Proofs.Convert.Made
import ClassLift.Proofs.Convert.Traversal

/-!
What is known of a script once all of its nodes have been visited.
-/

namespace ClassLift

open Forest

variable {options : Options} {f : Forest} {script r : Ref} {w : Workspace} {m : MemberAssignment}
variable {member : Ref} {k : Kind}

structure Finished (f : Forest) (options : Options) (script : Ref) (w : Workspace) : Prop where
  kind     : f.kind? script = some .script
  run      : Run options f (f.postorder script) (f.changes options script) w
  progress : Progress f (f.postorder script) (f.changes options script) w
  defined  : Defined f (f.postorder script) (f.changes options script) w
  reached  : Reached f script (f.changes options script) w
  gathered : Gathered f (f.postorder script) (f.changes options script) w
  classes  : ∀ {c}, w.forest.kind? c = some .classDefinition →
    f.kind? c = some .classDefinition ∨ ∃ r, .promotion r c ∈ f.changes options script
  made     : ∀ {r}, ¬f.Has r → w.forest.Has r → IsMade f w.forest r

theorem finished_of_ok (v : f.Valid) (s : f.Formed script)
    (ok : f.runScript options script = (.ok (), w)) : Finished f options script w := by
  obtain ⟨hs, run⟩ := run_of_ok v ok
  have has := has_of_kind? hs
  have order : f.postorder script = f.postorder script ++ [] := by simp
  exact ⟨hs, run, run.progress v has order, run.defined v has order, run.reached v s hs order,
    run.gathered v s hs order, run.classes v has order, run.made v s hs order⟩

namespace Finished

theorem mem_postorder (h : Finished f options script w) (v : f.Valid) :
    r ∈ f.postorder script ↔ f.Contains script r :=
  v.mem_postorder (has_of_kind? h.kind).ne_none

-- A member that has been merged is in the list of a class that hangs below the script.
theorem home (h : Finished f options script w) (v : f.Valid)
    (hm : .merge m member ∈ f.changes options script) : ∃ r className,
      m.className? f = .ok (some className) ∧ f.firstOf? (f.postorder script) className = some r ∧
      w.forest.kind? ((f.changes options script).image r) = some .classDefinition ∧
      w.forest.parent (w.forest.parent member) = (f.changes options script).image r ∧
      w.forest.Contains script (w.forest.parent member) := by
  obtain ⟨className, r, ofClass, first, parent⟩ := h.gathered.homes hm
  have p := h.progress
  have ⟨kind, reached⟩ := h.reached.registered p h.defined (fun _ => (h.mem_postorder v).mp) first
  have list : w.forest.parent member ≠ none := (has_of_kind? (p.merged hm).list).ne_none
  have mem := members_mem (parent ▸ list)
  rw [← parent] at mem
  exact ⟨r, className, ofClass, first, kind, p.valid.parent_eq mem, reached.trans (p.valid.contains_child mem)⟩

/- Original nodes that are still reached -/

variable (h : Finished f options script w) (v : f.Valid) (s : f.Formed script) (hf : f.Has r)
variable (hc : w.forest.Contains script r)
include h hf hc

theorem before : f.Contains script r :=
  (h.reached.old hf |>.mp hc).left

theorem not_lost : ¬Lost f (f.changes options script) r :=
  (h.reached.old hf |>.mp hc).right

theorem cls?_none : (f.changes options script).cls? r = none :=
  Log.cls?_eq_none.mpr fun ⟨_, hm⟩ => h.not_lost hf hc ⟨_, hm, .inl rfl⟩

include v s

theorem parent_not_merged (hk : f.kind? r = some .assignment) :
    f.parent r ∉ (f.changes options script).statements := by
  intro hm
  obtain ⟨m, member, merged, e⟩ := Log.mem_statements.mp hm
  have ⟨first, _⟩ := (h.progress.merged merged).view.assignment
  have hp : f.parent r ≠ none := e ▸ (has_of_kind? (h.progress.merged merged).view.statement).ne_none
  have statement := (h.progress.merged merged).view.statement
  have above : f.Contains script (f.parent r) := (h.before hf hc).parent_of_ne fun e' => by
    cases (e' ▸ hk).symm.trans h.kind
  obtain ⟨x, only⟩ := children_expressionStatement (s _ above) (e ▸ statement)
  have hx : r = x := by simpa [only] using v.mem_parent hp
  refine h.not_lost hf hc ⟨_, merged, .inr (.inl ?_)⟩
  rw [first, e, Forest.first, child, only, hx]
  rfl

-- Below such a node there is what it had below it, or what that has become.
theorem children_reached (hl : f.kind? r ≠ some .classMembers) (hs : f.kind? r ≠ some .script) :
    w.forest.children r = (f.children r).map (f.changes options script).image :=
  h.progress.children_image v hf (h.cls?_none hf hc) hl hs (h.parent_not_merged v s hf hc)

end Finished

end ClassLift
