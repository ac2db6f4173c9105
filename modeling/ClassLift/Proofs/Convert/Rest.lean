import ClassLift.Proofs.Convert.Failure
import ClassLift.Proofs.Convert.Reports
import ClassLift.Proofs.Convert.Traversal

/-!
Scripts that are at rest: a conversion of such a script changes nothing.
-/

namespace ClassLift

open Workspace Forest

variable {options : Options} {f : Forest} {script r cls : Ref} {done rest : List Ref}
variable {w w' : Workspace} {m : MemberAssignment} {change : Option Change} {className name : String}

-- No function is a constructor, and a method that may be merged into a class before it has this class
-- in its own function.
structure Rests (f : Forest) (options : Options) (script : Ref) : Prop where
  kind     : f.kind? script = some .script
  unmarked : ∀ {r}, f.Contains script r → f.kind? r = some .function → f.constructorDoc? r = none
  stays    : ∀ {m : MemberAssignment} {r cls className}, f.Contains script r →
    m.IsCandidate f options [] r className → f.firstOf? (f.before script r) className = some cls →
    f.Contains m.value cls

-- A run so far that has changed nothing. It has only counted classes.
structure Idle (f : Forest) (options : Options) (done : List Ref) (w : Workspace) : Prop where
  run    : Run options f done [] w
  forest : w.forest = f
  stats  : w.stats = { classesRegistered := w.stats.classesRegistered }

theorem Workspace.Visited.stats (h : w.Visited options r none w')
    (c : w.stats = { classesRegistered := w.stats.classesRegistered }) :
    w'.stats = { classesRegistered := w'.stats.classesRegistered } := by
  generalize hc : (none : Option Change) = change at h
  cases h
  case pass | plain | statement => exact c
  case cls =>
    obtain ⟨n, same⟩ := w.stats_define (w.forest.nearestName? r) r
    rw [same, c]
  case constructor ok =>
    cases ok
    case refused => exact c
    case promoted => cases hc
  case method ok =>
    cases ok
    case stays | unknown => exact c
    case joins => cases hc

namespace Idle

theorem start (f : Forest) (options : Options) : Idle f options [] { forest := f } :=
  ⟨.start, rfl, rfl⟩

theorem visit (h : Idle f options done w) (v : f.Valid) (ok : w.visit options r = (.ok none, w')) :
    Idle f options (done ++ [r]) w' := by
  have visited := visited_of_ok (h.forest ▸ v) ok
  exact ⟨h.run.visit ok, visited.forest_eq.trans h.forest, visited.stats h.stats⟩

end Idle

namespace Rests

variable (h : Rests f options script) (v : f.Valid)
include h v

theorem not_joins (idle : Idle f options done w) (order : f.postorder script = done ++ m.statement :: rest)
    (view : m.IsView w.forest) (onScript : w.forest.kind? (w.forest.parent m.statement) = some .script)
    (isMethod : m.isMethod w.forest) (j : m.Joins w options cls className name) : False := by
  obtain ⟨g, registry, findings, stats⟩ := w
  obtain rfl : g = f := idle.forest
  have has := has_of_kind? h.kind
  have d := idle.run.defined v has order
  have i : m.IsMethodAt g [] m.statement := ⟨rfl, view, onScript, isKind_iff.mp isMethod, rfl⟩
  obtain ⟨r, first, rfl⟩ := d.of_lookup? j.registered
  have below := (contains_of_postorder v has order).left
  refine j.not_contains v (has_of_kind? i.value).ne_none ?_
  exact h.stays below ⟨i, j.allowed, j.ofClass, name, j.named⟩ (before_eq v has order ▸ first)

theorem visit (idle : Idle f options done w) (order : f.postorder script = done ++ r :: rest) :
    ∃ w', w.visit options r = (.ok none, w') := by
  have has := has_of_kind? h.kind
  have below := (contains_of_postorder v has order).left
  have vw : w.forest.Valid := idle.forest ▸ v
  rcases hv : w.visit options r with ⟨e | change, w'⟩
  case error =>
    have attached : w.forest.kind? r ≠ some .script → w.forest.parent r ≠ none := fun hk => by
      rw [idle.forest] at hk ⊢
      exact (below.parent_of_ne fun e => hk (e ▸ h.kind)).ne_none has.ne_none
    cases (fails_of_error vw attached hv).right
    case function doc kind documented free parts =>
      rw [idle.forest] at kind documented
      cases (h.unmarked below kind).symm.trans documented
    case list m cls className name e of view onScript isMethod joins list =>
      subst of
      exact (h.not_joins v idle order view onScript isMethod joins).elim
  case ok =>
    have visited := visited_of_ok vw hv
    rcases visited.change_cases with rfl | ⟨cls, rfl⟩ | ⟨m, member, rfl, rfl⟩
    case inl => exact ⟨w', rfl⟩
    case inr.inl =>
      obtain ⟨-, doc, q, rfl, rfl, kind, marked, -⟩ := visited.of_promotion
      rw [idle.forest] at kind marked
      cases (h.unmarked below kind).symm.trans marked
    case inr.inr =>
      obtain ⟨-, view, onScript, isMethod, cls, className, name, joins, -⟩ := visited.of_merge
      exact (h.not_joins v idle order view onScript isMethod joins).elim

theorem visitAll (idle : Idle f options done w) (order : f.postorder script = done ++ rest) :
    ∃ w', Workspace.visitAll options rest w = ([], .ok (), w') ∧ Idle f options (done ++ rest) w' := by
  induction rest generalizing done w
  case nil => exact ⟨w, rfl, by simpa using idle⟩
  case cons r rest ih =>
    obtain ⟨w₁, ok⟩ := h.visit v idle order
    obtain ⟨w', rest', idle'⟩ := ih (idle.visit v ok) (by simpa using order)
    exact ⟨w', by simp [visitAll_cons_ok ok, rest'], by simpa using idle'⟩

-- Nothing is changed. What is found and counted can be told from the tree.
theorem runScript :
    ∃ w, f.runScript options script = (.ok (), w) ∧ Idle f options (f.postorder script) w := by
  obtain ⟨w, visits, idle⟩ := h.visitAll v (.start f options) (List.nil_append _).symm
  refine ⟨w, ?_, by simpa using idle⟩
  rw [runScript_eq_foldScript v, foldScript_of_kind h.kind, visits]

end Rests

/- Runs without changes -/

theorem Workspace.Visited.codeChanges {change : Option Change} (h : w.Visited options r change w') :
    w'.stats.codeChanges = w.stats.codeChanges + change.toList.length := by
  cases h
  case pass | plain | statement => rfl
  case cls => simp
  case constructor ok =>
    cases ok
    case refused => rfl
    case promoted => simp [countPromotion]
  case method ok =>
    cases ok <;> rfl

-- Every change is counted.
theorem Run.codeChanges_eq {log : Log} (run : Run options f done log w) (v : f.Valid) (hs : f.Has script)
    (h : f.postorder script = done ++ rest) : w.stats.codeChanges = log.length := by
  refine run.invariant (motive := fun _ log w => w.stats.codeChanges = log.length) v hs h rfl ?_
  intro done log w r rest change w' _ _ counted visited
  rw [visited.codeChanges, counted, List.length_append]

theorem Run.idle {log : Log} (run : Run options f done log w) (v : f.Valid) (none : log = []) :
    Idle f options done w := by
  induction run
  case start => exact .start f options
  case visit run hv ih =>
    obtain ⟨rfl, unchanged⟩ := List.append_eq_nil_iff.mp none
    rw [Option.toList_eq_nil_iff] at unchanged
    exact (ih rfl).visit v (unchanged ▸ hv)

-- A method that has been visited without a change has its class in its own function.
theorem Run.contains_value {log : Log} (run : Run options f done log w) (v : f.Valid) (hs : f.Has script)
    (h : f.postorder script = done ++ rest) (none : log = []) (hr : r ∈ done)
    (i : m.IsCandidate f options [] r className)
    (first : f.firstOf? (f.before script r) className = some cls) : f.Contains m.value cls := by
  refine run.invariant (motive := fun done log w => log = [] → r ∈ done → f.Contains m.value cls) v hs h
    nofun ?_ none hr
  intro done log w x rest change w' order run ih visited none hr
  obtain ⟨rfl, unchanged⟩ := List.append_eq_nil_iff.mp none
  rcases List.mem_append.mp hr with hr | hr
  case inl => exact ih rfl hr
  case inr =>
    obtain rfl := List.mem_singleton.mp hr
    obtain rfl := i.method.of
    have forest := (run.idle v rfl).forest
    have d := run.defined v hs order
    rw [before_eq v hs order] at first
    by_contra out
    obtain ⟨name, named⟩ := i.named
    have value := has_of_kind? i.method.value
    have joins : m.Joins w options cls className name := by
      refine ⟨forest ▸ i.allowed, forest ▸ i.ofClass, ?_, forest ▸ named, ?_⟩
      · rw [d.lookup, first]
        rfl
      · rw [forest, ← Bool.not_eq_true, v.isWithin_iff value.ne_none]
        exact out
    obtain ⟨member, rfl⟩ := visited.merges_of_joins (forest ▸ i.method.view)
      (forest ▸ i.method.onScript) (forest ▸ isKind_iff.mpr i.method.value) joins
    cases unchanged

-- A run that changes nothing shows that the script is at rest.
theorem Run.rests (run : Run options f (f.postorder script) [] w) (v : f.Valid)
    (hs : f.kind? script = some .script) (u : f.IsUnambiguous (f.postorder script)) :
    Rests f options script := by
  have has := has_of_kind? hs
  have order := (List.append_nil (f.postorder script)).symm
  have visited {x : Ref} : f.Contains script x → x ∈ f.postorder script := (v.mem_postorder has.ne_none).mpr
  refine ⟨hs, fun hc hk => ?unmarked, fun hc => run.contains_value v has order rfl (visited hc)⟩
  by_contra marked
  have isSome := Option.isSome_iff_ne_none.mpr marked
  have mem := mem_definitions.mpr ⟨visited hc, isDefinition_iff.mpr (.inr ⟨hk, isSome⟩)⟩
  obtain ⟨cls, promoted⟩ := ((run.defined v has order).promoted _).mpr ⟨mem, hk, u _ mem⟩
  cases promoted

-- What a conversion that changes nothing finds, and how many names it counts.
def Forest.survey (f : Forest) (options : Options) (script : Ref) : Summary where
  findings := (f.postorder script).filterMap (f.unknownAt? options script [])
  stats.classesRegistered := ((f.definitions (f.postorder script)).filterMap f.nearestName?).length

theorem Rests.convertScript (h : Rests f options script) (v : f.Valid)
    (u : f.IsUnambiguous (f.postorder script)) :
    f.convertScript options script = (.ok (f.survey options script), f) := by
  obtain ⟨w, ok, idle⟩ := h.runScript v
  have has := has_of_kind? h.kind
  have order := (List.append_nil (f.postorder script)).symm
  have reported := idle.run.reported v has order
  have defined := idle.run.defined v has order
  have stats := idle.stats
  rw [reported.classesRegistered_eq defined u] at stats
  simp only [Forest.convertScript, ok, Except.map, idle.forest, stats, reported.findings_eq defined u, survey]

end ClassLift
