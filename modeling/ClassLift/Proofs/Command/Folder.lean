import ClassLift.Proofs.Command.Disk
import ClassLift.Proofs.Tree.Edits

/-!
What paths mean in a working folder, and what is there after a file has been written.
-/

namespace ClassLift.Folder

open Forest (bind_eq_ok throw_bind unless_throw_eq_ok)

variable {d d' : Folder} {path name content : String} {names : List String} {place : Place}

-- The path leads to this file of the folder itself. Other paths lead out of it, or nowhere.
def Names (path name : String) : Prop :=
  ∃ r, route path = .ok r ∧ r.start = .here ∧ r.names.getLast? = some name ∧
    ∀ part ∈ r.names.dropLast, part = "."

/- Files -/

theorem lookup_cons_eq_ite (n c : String) (files : List (String × String)) (other : String) :
    ((n, c) :: files).lookup other = if other = n then some c else files.lookup other := by
  rw [List.lookup_cons]
  by_cases same : other = n
  case pos => simp [same]
  case neg => rw [if_neg same, beq_eq_false_iff_ne.mpr same]

theorem lookup_map_replace (files : List (String × String)) (name content other : String) :
    (files.map fun (n, c) => if n = name then (n, content) else (n, c)).lookup other =
      if other = name then (files.lookup other).map fun _ => content else files.lookup other := by
  induction files
  case nil => simp
  case cons file files ih =>
    have ⟨n, c⟩ := file
    by_cases replaced : n = name <;> by_cases found : other = n <;> by_cases target : other = name <;>
      simp_all [lookup_cons_eq_ite]

theorem file?_put (d : Folder) (name content other : String) :
    (d.put name content).file? other = if other = name then some content else d.file? other := by
  unfold put
  split
  case isTrue found =>
    have ⟨c, hc⟩ := Option.isSome_iff_exists.mp found
    rw [file?, lookup_map_replace, ← file?]
    by_cases same : other = name
    case pos => simp [same, hc]
    case neg => simp [same]
  case isFalse missing =>
    rw [Bool.not_eq_true, Option.isSome_eq_false_iff, Option.isNone_iff_eq_none] at missing
    rw [file?, List.lookup_append, ← file?, lookup_cons_eq_ite]
    by_cases same : other = name
    case pos => simp [same, missing]
    case neg => simp [same]

/- Places -/

-- There is no way back into the folder.
theorem step_eq_here : d.step place name = .ok .here ↔ place = .here ∧ name = "." := by
  unfold step
  cases place
  case file => simp
  case here | elsewhere =>
    by_cases dot : name = "."
    case pos => simp [dot]
    case neg =>
      simp only [dot, if_false]
      repeat' split
      all_goals simp

theorem foldlM_step_eq_here : names.foldlM d.step place = .ok .here ↔
    place = .here ∧ ∀ part ∈ names, part = "." := by
  induction names generalizing place
  case nil => simp [pure, Except.pure]
  case cons part names ih =>
    simp only [List.foldlM_cons, bind_eq_ok, List.forall_mem_cons, ih]
    rw [← and_assoc, ← step_eq_here (d := d)]
    simp

theorem write_ok (h : d.write path content = .ok d') :
    (∃ name, Names path name ∧ d' = d.put name content) ∨ (∀ name, ¬Names path name) ∧ d' = d := by
  simp only [write, bind_eq_ok] at h
  have ⟨r, hr, place, hp, h⟩ := h
  split at h
  case h_1 | h_2 => cases h
  case h_3 place _ _ name last _ =>
    simp only [throw_bind, unless_throw_eq_ok] at h
    obtain ⟨-, -, same⟩ := h
    cases same
    by_cases here : place = .here
    case pos =>
      subst here
      have ⟨start, dots⟩ := foldlM_step_eq_here.mp hp
      exact .inl ⟨name, ⟨r, hr, start, last, dots⟩, if_pos rfl⟩
    case neg =>
      refine .inr ⟨fun name' ⟨r', hr', start, _, dots⟩ => here ?_, if_neg here⟩
      cases hr.symm.trans hr'
      exact Except.ok.inj (hp.symm.trans (foldlM_step_eq_here.mpr ⟨start, dots⟩))

theorem Names.unique {name' : String} (h : Names path name) (h' : Names path name') : name = name' := by
  obtain ⟨r, hr, -, last, -⟩ := h
  obtain ⟨r', hr', -, last', -⟩ := h'
  cases hr.symm.trans hr'
  exact Option.some.inj (last.symm.trans last')

-- What has been written is in the file that the path names, and the other files are as they were.
theorem hasFiles : disk.HasFiles file? fun _ => Names := by
  refine .ofState (fun {d d' path text file} h named => ?_) (fun {d d' path text file} h other => ?_) <;>
    rcases write_ok h with ⟨written, names, rfl⟩ | ⟨none, rfl⟩
  · rw [file?_put, if_pos (named.unique names)]
  · exact absurd named (none file)
  · rw [file?_put, if_neg fun same : file = written => other (same ▸ names)]
  · rfl

end ClassLift.Folder
