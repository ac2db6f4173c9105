import ClassLift.Convert.Workspace

/-!
What a definition does to the classes that are known: a name that is free is taken, and a second
definition of it is a finding.
-/

namespace ClassLift

namespace Registry

variable {r : Registry}

theorem refusal?_of_free {name : String} (h : r.lookup? name = none)
    (f : Forest) (node : Ref) : r.refusal? f name node = none := by
  simp [refusal?, contains, h]

theorem refusal?_of_taken {name : String} {p : Ref}
    (h : r.lookup? name = some p) (f : Forest) (node : Ref) :
    r.refusal? f name node = some (.at f .classRedefined node name) := by
  simp [refusal?, contains, h]

theorem mem_of_lookup? {name : String} {p : Ref} (h : r.lookup? name = some p) :
    (name, p) ∈ r.entries := by
  obtain ⟨⟨name', p'⟩, hf, rfl⟩ := Option.map_eq_some_iff.mp h
  have e : name' = name := by simpa using List.find?_some hf
  exact e ▸ List.mem_of_find?_eq_some hf

-- A later entry is only found if no entry before it has the name.
theorem lookup?_concat (entries : List (String × Ref)) (name other : String) (node : Ref) :
    ({ entries := entries ++ [(name, node)] } : Registry).lookup? other =
      (({ entries } : Registry).lookup? other).or (if name = other then some node else none) := by
  simp only [lookup?, List.find?_append, Option.map_or]
  by_cases h : name = other <;> simp [h]

end Registry

namespace Workspace

variable {w : Workspace}

@[simp]
theorem forest_note (finding : Finding) : (w.note finding).forest = w.forest := rfl

@[simp]
theorem registry_note (finding : Finding) : (w.note finding).registry = w.registry := rfl

@[simp]
theorem forest_report (problem : Problem) (node : Ref) (name : String) :
    (w.report problem node name).forest = w.forest := rfl

@[simp]
theorem registry_report (problem : Problem) (node : Ref) (name : String) :
    (w.report problem node name).registry = w.registry := rfl

-- A name that is free is defined from now on.
theorem define_of_free {name : String} (h : w.registry.lookup? name = none) (node : Ref) :
    w.define (some name) node = { w with
      registry := { entries := w.registry.entries ++ [(name, node)] }
      stats.classesRegistered := w.stats.classesRegistered + 1 } := by
  simp [define, register, Registry.register, Registry.refusal?_of_free h]

theorem define_of_taken {name : String} {r : Ref} (h : w.registry.lookup? name = some r)
    (node : Ref) : w.define (some name) node = w.report .classRedefined node name := by
  simp [define, register, Registry.register, Registry.refusal?_of_taken h, report]

@[simp]
theorem forest_define (name : Option String) (node : Ref) : (w.define name node).forest = w.forest := by
  cases name
  case none => rfl
  case some name =>
    cases h : w.registry.lookup? name
    case none => rw [define_of_free h]
    case some => rw [define_of_taken h, report, forest_note]

-- Only the count of the names that are registered may change.
theorem stats_define (name : Option String) (node : Ref) :
    ∃ n, (w.define name node).stats = { w.stats with classesRegistered := n } := by
  cases name
  case none => exact ⟨_, rfl⟩
  case some name =>
    cases h : w.registry.lookup? name
    case none => exact ⟨_, by rw [define_of_free h]⟩
    case some => exact ⟨_, by rw [define_of_taken h]; rfl⟩

@[simp]
theorem codeChanges_define (name : Option String) (node : Ref) :
    (w.define name node).stats.codeChanges = w.stats.codeChanges := by
  obtain ⟨n, h⟩ := w.stats_define name node
  rw [h]

@[simp]
theorem classesPromoted_define (name : Option String) (node : Ref) :
    (w.define name node).stats.classesPromoted = w.stats.classesPromoted := by
  obtain ⟨n, h⟩ := w.stats_define name node
  rw [h]

theorem mem_entries_define {name : Option String} {node : Ref} {e : String × Ref}
    (h : e ∈ (w.define name node).registry.entries) : e ∈ w.registry.entries ∨ e.2 = node := by
  cases name
  case none => exact .inl h
  case some name =>
    cases ht : w.registry.lookup? name
    case none =>
      rw [define_of_free ht] at h
      rcases List.mem_append.mp h with h | h
      · exact .inl h
      · exact .inr (by rw [List.mem_singleton.mp h])
    case some =>
      rw [define_of_taken ht] at h
      exact .inl h

end Workspace

end ClassLift
