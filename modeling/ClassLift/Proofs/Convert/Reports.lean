import ClassLift.Proofs.Convert.Belonging
import ClassLift.Proofs.Convert.Methods

/-!
What a run reports of classes that it does not find. It can be told from the original tree, but for the
functions that have become classes.
-/

namespace ClassLift

open Forest

variable {options : Options} {f : Forest} {script r : Ref} {done rest : List Ref} {log log' : Log}
variable {w w' : Workspace} {change : Option Change}

-- What is found at a statement whose class is not defined before it.
def Forest.unknownAt? (f : Forest) (options : Options) (script : Ref) (log : Log) (r : Ref) :
    Option Finding :=
  (f.methodAt? log r).bind fun m =>
    m.unknown? f options fun className => (f.firstOf? (f.before script r) className).isSome

theorem Forest.unknownAt?_of_kind (hk : f.kind? r ≠ some .expressionStatement) :
    f.unknownAt? options script log r = none := by
  rw [unknownAt?, methodAt?_of_kind hk, Option.bind_none]

theorem Forest.unknownAt?_of_not_method (h : ∀ m : MemberAssignment, ¬m.IsMethodAt f log r) :
    f.unknownAt? options script log r = none := by
  have none : f.methodAt? log r = none :=
    Option.eq_none_iff_forall_ne_some.mpr fun m hm => h m (methodAt?_eq_some.mp hm)
  rw [unknownAt?, none, Option.bind_none]

/- A visit -/

def Finding.isUnknown (finding : Finding) : Bool :=
  finding.problem = .unknownClass

namespace Workspace

-- What is known is counted, and nothing else is.
def IsCounted (w : Workspace) : Prop :=
  w.stats.classesRegistered = w.registry.entries.length

theorem findings_define (name : Option String) (node : Ref) :
    (w.define name node).findings.filter Finding.isUnknown = w.findings.filter Finding.isUnknown := by
  cases name
  case none => rfl
  case some name =>
    cases h : w.registry.lookup? name
    case none => rw [define_of_free h]
    case some => simp [define_of_taken h, report, note, Finding.isUnknown, Finding.at]

theorem IsCounted.define (h : w.IsCounted) (name : Option String) (node : Ref) :
    (w.define name node).IsCounted := by
  cases name
  case none => exact h
  case some name =>
    cases hl : w.registry.lookup? name
    case none => simp [define_of_free hl, IsCounted, h.symm]
    case some => rwa [define_of_taken hl]

namespace Visited

theorem isCounted (h : w.Visited options r change w') (c : w.IsCounted) : w'.IsCounted := by
  cases h
  case pass | plain | statement => exact c
  case cls => exact c.define ..
  case constructor ok =>
    cases ok
    case refused => exact c
    case promoted q g _ _ _ =>
      have counted : ({ w with forest := g }.countPromotion).IsCounted := c
      exact counted.define ..
  case method ok =>
    cases ok <;> exact c

theorem findings (h : w.Visited options r change w') : w'.findings.filter Finding.isUnknown =
    w.findings.filter Finding.isUnknown ++ ((w.forest.methodAt? [] r).bind fun m =>
      m.unknown? w.forest options w.registry.contains).toList := by
  have other (hk : w.forest.kind? r ≠ some .expressionStatement) : w.forest.methodAt? [] r = none :=
    methodAt?_of_kind hk
  cases h
  case pass kind => simp [other (by simp_all)]
  case cls kind => simp [other (by simp [kind]), findings_define]
  case plain kind _ => simp [other (by simp [kind])]
  case constructor kind _ ok =>
    rw [other (by simp [kind])]
    cases ok
    case refused finding taken =>
      obtain ⟨name, -, h⟩ := Option.bind_eq_some_iff.mp taken
      have redefined : finding.isUnknown = false := by
        unfold Registry.refusal? at h
        split at h <;> cases h
        rfl
      simp [note, redefined]
    case promoted q g _ _ _ => simp [findings_define, countPromotion]
  case statement kind other =>
    have : w.forest.methodAt? [] r = none := by
      refine Option.eq_none_iff_forall_ne_some.mpr fun m hm => ?_
      have i := methodAt?_eq_some.mp hm
      have no := other m i.view i.of i.onScript
      simp [MemberAssignment.isMethod, isKind, i.value] at no
    simp [this]
  case method m member of view onScript isMethod ok =>
    have i : m.IsMethodAt w.forest [] r := ⟨of, view, onScript, isKind_iff.mp isMethod, rfl⟩
    rw [methodAt?_eq_some.mpr i, Option.bind_some]
    cases ok
    case stays _ silent => simp [silent]
    case unknown className _ ofClass unknown reported =>
      simp [MemberAssignment.unknown?, ofClass, reported, Registry.contains, unknown, report, note,
        Finding.isUnknown, Finding.at]
    case joins cls member className name g joins _ _ =>
      have known : w.registry.contains className := by simp [Registry.contains, joins.registered]
      simp [MemberAssignment.unknown?, joins.ofClass, known, countMerge]

end Visited

end Workspace

/- Runs -/

structure Reported (f : Forest) (options : Options) (script : Ref) (done : List Ref) (log : Log)
    (w : Workspace) : Prop where
  unknown : w.findings.filter Finding.isUnknown = done.filterMap (f.unknownAt? options script log)
  counted : w.IsCounted

namespace Reported

theorem start (f : Forest) (options : Options) (script : Ref) :
    Reported f options script [] [] { forest := f } :=
  ⟨rfl, rfl⟩

-- What a statement reports does not depend on the promotions of other functions.
theorem unknownAt?_congr (h : ∀ m : MemberAssignment, m.IsView f → m.statement = r →
      f.kind? m.value = some .function → (log'.cls? m.value = none ↔ log.cls? m.value = none)) :
    f.unknownAt? options script log' r = f.unknownAt? options script log r := by
  have same : f.methodAt? log' r = f.methodAt? log r := by
    refine Option.ext fun m => ?_
    rw [methodAt?_eq_some, methodAt?_eq_some]
    constructor <;> rintro ⟨of, view, onScript, value, kept⟩
    · exact ⟨of, view, onScript, value, (h m view of value).mp kept⟩
    · exact ⟨of, view, onScript, value, (h m view of value).mpr kept⟩
  rw [unknownAt?, unknownAt?, same]

-- The function of a statement has been visited before the statement.
theorem unknownAt?_visited (p : Progress f done log w) (t : Turn f done r)
    (visited : w.Visited options r change w') {x : Ref} (hx : x ∈ done ∨ x = r) :
    f.unknownAt? options script (log ++ change.toList) x = f.unknownAt? options script log x := by
  refine unknownAt?_congr fun m view of function => ?_
  have assignment : m.assignment ∈ done := by
    rcases hx with hx | rfl
    · exact p.below (of ▸ hx) view.assignment_mem
    · exact t.children _ (of ▸ view.assignment_mem)
  have value := p.below assignment (view.value_mem (has_of_kind? function).ne_none)
  have k := Defined.Keeps.of_visited p t.fresh visited
  rw [Log.cls?_eq_none, Log.cls?_eq_none, k.promoted fun e => t.fresh (e ▸ value)]

-- What a visit reports is what the original tree says.
theorem unknownAt?_eq (p : Progress f done log w) (d : Defined f done log w) (v : f.Valid)
    (hs : f.Has script) (order : f.postorder script = done ++ r :: rest) :
    ((w.forest.methodAt? [] r).bind fun m => m.unknown? w.forest options w.registry.contains) =
      f.unknownAt? options script log r := by
  have t := turn_of_postorder v hs order
  have parent := p.parent_eq v t.has t.fresh
  have merged := p.not_merged t.fresh
  rw [unknownAt?, p.methodAt?_eq v t.has merged parent]
  refine Option.bind_congr fun m hm => ?_
  have i := methodAt?_eq_some.mp hm
  rw [p.unknown?_eq v i ((p.isMethodAt_iff v t.has merged parent).mpr i) parent]
  refine MemberAssignment.unknown?_congr fun className _ => ?_
  rw [Registry.contains, d.lookup, before_eq v hs order, Option.isSome_map]

theorem step (h : Reported f options script done log w) (p : Progress f done log w)
    (d : Defined f done log w) (v : f.Valid) (hs : f.Has script)
    (order : f.postorder script = done ++ r :: rest) (visited : w.Visited options r change w') :
    Reported f options script (done ++ [r]) (log ++ change.toList) w' := by
  have t := turn_of_postorder v hs order
  refine ⟨?_, visited.isCounted h.counted⟩
  have before : done.filterMap (f.unknownAt? options script (log ++ change.toList)) =
      done.filterMap (f.unknownAt? options script log) :=
    List.filterMap_congr fun x hx => unknownAt?_visited p t visited (.inl hx)
  rw [visited.findings, h.unknown, unknownAt?_eq p d v hs order, List.filterMap_append, before,
    List.filterMap_cons, unknownAt?_visited p t visited (.inr rfl)]
  cases f.unknownAt? options script log r <;> rfl

end Reported

theorem Run.reported (run : Run options f done log w) (v : f.Valid) (hs : f.Has script)
    (h : f.postorder script = done ++ rest) : Reported f options script done log w := by
  refine run.invariant (motive := fun done log w => Reported f options script done log w) v hs h
    (.start f options script) fun {done log w r rest change w'} order run h visited => ?_
  exact Reported.step h (run.progress v hs order) (run.defined v hs order) v hs order visited

-- If no name is repeated, unknown classes are all that is found.
theorem Reported.findings_eq (h : Reported f options script done log w) (d : Defined f done log w)
    (u : f.IsUnambiguous done) : w.findings = done.filterMap (f.unknownAt? options script log) := by
  have none : w.findings.filter (·.problem = .classRedefined) = [] := by
    have empty : (f.definitions done).filter (f.isRepeated done) = [] :=
      List.filter_eq_nil_iff.mpr fun r hr => by simp [u r hr]
    rw [d.findings, empty]
    rfl
  rw [← h.unknown, eq_comm, List.filter_eq_self]
  intro finding hm
  cases hp : finding.problem
  case unknownClass => simp [Finding.isUnknown, hp]
  case classRedefined => simpa [hp] using List.filter_eq_nil_iff.mp none finding hm

-- Then each definition that has a name is counted.
theorem Reported.classesRegistered_eq (h : Reported f options script done log w) (d : Defined f done log w)
    (u : f.IsUnambiguous done) :
    w.stats.classesRegistered = ((f.definitions done).filterMap f.nearestName?).length := by
  have named (r : Ref) (hr : r ∈ f.definitions done) : f.isFirst done r = (f.nearestName? r).isSome := by
    have := u r hr
    cases hn : f.nearestName? r <;> simp_all [isRepeated, isFirst]
  rw [h.counted, d.entries, List.filterMap_filter, List.length_filterMap_eq_countP,
    List.length_filterMap_eq_countP]
  refine List.countP_congr fun r hr => ?_
  rw [named r hr]
  cases f.nearestName? r <;> simp

end ClassLift
