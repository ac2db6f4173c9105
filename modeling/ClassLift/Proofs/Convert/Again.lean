import ClassLift.Proofs.Convert.Left
import ClassLift.Proofs.Convert.Preservation
import ClassLift.Proofs.Convert.Rest

/-!
The second conversion of a script. It has nothing left to do, unless merges have carried the class of a
method that had to stay to a place before the method.
-/

namespace ClassLift

open Forest

variable {options : Options} {f g : Forest} {script r c d : Ref} {log : Log} {w w' : Workspace}
variable {m : MemberAssignment} {className : String}

-- A method has been left on a script, and the definition of its class came after it. But what has become
-- of the definition comes before it, and it is not in the function of the method.
structure Overtakes (f g : Forest) (options : Options) (script : Ref) (log : Log)
    (m : MemberAssignment) (d : Ref) : Prop where
  method     : ∃ className, m.IsCandidate f options log m.statement className ∧
    f.nearestName? d = some className
  direct     : m.statement ∈ f.children script
  left       : m.statement ∉ log.statements
  definition : d ∈ f.definitions (f.postorder script)
  after      : d ∉ f.before script m.statement
  before     : log.image d ∈ g.before script m.statement
  apart      : ¬g.Contains m.value (log.image d)

-- A summary without its changes.
def Summary.quiet (s : Summary) : Summary where
  findings := s.findings
  stats.classesRegistered := s.stats.classesRegistered

theorem before_isPrefix : f.before script r <+: f.postorder script :=
  List.takeWhile_prefix _

namespace Finished

variable (h : Finished f options script w) (v : f.Valid) (u : f.IsUnambiguous (f.postorder script))
include h v u

/- Definitions -/

-- What is defined in the end is what the definitions have become.
theorem mem_definitions_left (s : f.Formed script) :
    c ∈ w.forest.definitions (w.forest.postorder script) ↔
      ∃ d ∈ f.definitions (f.postorder script), (f.changes options script).image d = c := by
  rw [mem_definitions, h.mem_postorder_left, isDefinition_iff]
  constructor
  case mp =>
    rintro ⟨hc, hk | ⟨hk, marked⟩⟩
    · exact h.definition_of_class v hk hc
    · rw [h.constructorDoc?_none v u s hk hc] at marked
      cases marked
  case mpr =>
    rintro ⟨d, hd, rfl⟩
    have ⟨hk, hc⟩ := h.class_of_definition v u hd
    exact ⟨hc, .inl hk⟩

theorem definitions_perm (s : f.Formed script) :
    (w.forest.definitions (w.forest.postorder script)).Perm
      ((f.definitions (f.postorder script)).map (f.changes options script).image) := by
  have p := h.progress
  have has := has_of_kind? h.kind
  refine (List.perm_ext_iff_of_nodup ?_ ?_).mpr fun c => ?_
  · exact (p.valid.nodup_postorder (p.ext.has has).ne_none).filter _
  · refine ((v.nodup_postorder has.ne_none).filter _).map_on fun x hx y hy e => ?_
    have has {x : Ref} (hx : x ∈ f.definitions (f.postorder script)) : f.Has x :=
      (IsDefining.of_isDefinition (mem_definitions.mp hx).right).has
    exact h.gathered.image_inj p v (has hx) (has hy) e
  · rw [h.mem_definitions_left v u s, List.mem_map]

theorem isUnambiguous_left (s : f.Formed script) :
    w.forest.IsUnambiguous (w.forest.postorder script) := by
  refine isUnambiguous_of_inj fun {c c' className} hc hc' hn hn' => ?_
  obtain ⟨r, hr, rfl⟩ := (h.mem_definitions_left v u s).mp hc
  obtain ⟨d, hd, rfl⟩ := (h.mem_definitions_left v u s).mp hc'
  rw [h.nearestName?_image v u s hr] at hn
  rw [h.nearestName?_image v u s hd] at hn'
  rw [u.eq_of_name hr hd hn hn']

theorem length_names (s : f.Formed script) :
    ((w.forest.definitions (w.forest.postorder script)).filterMap w.forest.nearestName?).length =
      ((f.definitions (f.postorder script)).filterMap f.nearestName?).length := by
  rw [((h.definitions_perm v u s).filterMap _).length_eq, List.filterMap_map]
  congr 1
  exact List.filterMap_congr fun r hr => h.nearestName?_image v u s hr

/- Methods -/

section Methods

variable (s : f.Shaped script) (hc : w.forest.Contains script r)
include s hc

omit u in
-- A method that is left is on the script, as it was before.
theorem direct_left (i : m.IsMethodAt w.forest [] r) :
    r ∈ f.children script ∧ r ∉ (f.changes options script).statements ∧
      w.forest.parent r = f.parent r ∧ m.IsMethodAt f (f.changes options script) r := by
  have i' := (h.isMethodAt_iff v s.formed hc).mp i
  have statement := i'.of ▸ i'.view.statement
  have ⟨left, parent⟩ := h.parent_statement v s.formed hc statement
  exact ⟨i'.mem_children v s h.kind (h.before (has_of_kind? statement) hc), left, parent, i'⟩

-- What was known at a method that is left still is.
theorem known_left (i : m.IsMethodAt w.forest [] r)
    (known : (f.firstOf? (f.before script r) className).isSome) :
    (w.forest.firstOf? (w.forest.before script r) className).isSome := by
  obtain ⟨direct, left, -, i'⟩ := h.direct_left v s hc i
  obtain ⟨d, hd⟩ := Option.isSome_iff_exists.mp known
  have ⟨definition, named⟩ := mem_of_firstOf? hd
  have ⟨visited, marked⟩ := mem_definitions.mp definition
  have hd := mem_definitions.mpr ⟨before_isPrefix.subset visited, marked⟩
  have ⟨kind, _⟩ := h.class_of_definition v u hd
  have statement := i'.of ▸ i'.view.statement
  have mem := h.mem_before_of_mem v s direct statement left (.of_isDefinition marked) visited
  refine firstOf?_isSome (mem_definitions.mpr ⟨mem, isDefinition_iff.mpr (.inl kind)⟩) ?_
  rw [h.nearestName?_image v u s.formed hd, named]

omit hc in
-- What is known at a method that is left has been defined under its name.
theorem definition_left (first : w.forest.firstOf? (w.forest.before script r) className = some c) :
    ∃ d ∈ f.definitions (f.postorder script), f.nearestName? d = some className ∧
      (f.changes options script).image d = c ∧ c ∈ w.forest.before script r := by
  have ⟨definition, named⟩ := mem_of_firstOf? first
  have ⟨mem, marked⟩ := mem_definitions.mp definition
  obtain ⟨d, hd, rfl⟩ := (h.mem_definitions_left v u s.formed).mp
    (mem_definitions.mpr ⟨before_isPrefix.subset mem, marked⟩)
  exact ⟨d, hd, h.nearestName?_image v u s.formed hd ▸ named, rfl, mem⟩

-- A class that is known at a method that was not merged is in its function, or has come before it.
theorem stays_left (i : m.IsCandidate w.forest options [] r className)
    (first : w.forest.firstOf? (w.forest.before script r) className = some c) :
    w.forest.Contains m.value c ∨
      ∃ d, Overtakes f w.forest options script (f.changes options script) m d := by
  obtain ⟨d, hd, named, rfl, mem⟩ := h.definition_left v u s first
  have candidate := (h.isCandidate_iff v s.formed hc).mp i
  obtain ⟨direct, left, -, method⟩ := h.direct_left v s hc i.method
  obtain rfl := method.of
  refine or_iff_not_imp_left.mpr fun out =>
    ⟨d, ⟨_, candidate, named⟩, direct, left, hd, fun before => ?_, mem, out⟩
  have ⟨_, definition⟩ := mem_definitions.mp hd
  have first := u.firstOf?_of_isPrefix before_isPrefix (mem_definitions.mpr ⟨before, definition⟩) named
  -- The method would have been merged.
  have inside : f.Contains m.value d := by
    by_contra apart
    obtain ⟨name, isNamed⟩ := candidate.named
    have visited := (v.children_sublist_postorder (has_of_kind? h.kind).ne_none).subset direct
    obtain ⟨member, merged⟩ := (h.decided v s).merged direct visited |>.mpr
      ⟨className, name, method.view, method.value, Log.cls?_eq_none.mp method.kept, candidate.allowed,
        isNamed, candidate.ofClass, d, first, apart⟩
    exact left (Log.mem_statements.mpr ⟨m, member, merged, rfl⟩)
  exact out (h.contains_value v s method direct left candidate.ofClass (.of_isDefinition definition) inside)

-- If nothing was found at a node, nothing is found there again.
theorem silent_left (hu : f.unknownAt? options script (f.changes options script) r = none) :
    w.forest.unknownAt? options script [] r = none := by
  refine Option.bind_eq_none_iff.mpr fun m hm => ?_
  have i := methodAt?_eq_some.mp hm
  obtain ⟨-, -, parent, i'⟩ := h.direct_left v s hc i
  rw [unknownAt?, methodAt?_eq_some.mpr i', Option.bind_some] at hu
  rw [h.progress.unknown?_eq v i' i parent]
  exact MemberAssignment.unknown?_mono (fun _ => h.known_left v u s hc i) hu

end Methods

-- The script is at rest, unless a class has overtaken its method.
theorem rests_iff (s : f.Shaped script) : Rests w.forest options script ↔
    ∀ m d, ¬Overtakes f w.forest options script (f.changes options script) m d := by
  constructor
  case mp =>
    intro rests m d o
    obtain ⟨className, candidate, named⟩ := o.method
    have hc := h.contains_left v o.direct candidate.method.view.statement o.left
    have ⟨kind, _⟩ := h.class_of_definition v u o.definition
    have first := (h.isUnambiguous_left v u s.formed).firstOf?_of_isPrefix before_isPrefix
      (mem_definitions.mpr ⟨o.before, isDefinition_iff.mpr (.inl kind)⟩)
      ((h.nearestName?_image v u s.formed o.definition).trans named)
    exact o.apart (rests.stays hc ((h.isCandidate_iff v s.formed hc).mpr candidate) first)
  case mpr =>
    intro none
    refine ⟨(h.progress.ext.kind? (has_of_kind? h.kind)).trans h.kind,
      fun hc hk => h.constructorDoc?_none v u s.formed hk hc, fun hc i first => ?_⟩
    exact (h.stays_left v u s hc i first).resolve_right fun ⟨d, o⟩ => none _ d o

omit u in
-- What is found in a run, and what is counted, if no name is repeated.
theorem summary_eq (u : f.IsUnambiguous (f.postorder script)) : w.summary.quiet = {
    findings := (f.postorder script).filterMap (f.unknownAt? options script (f.changes options script))
    stats.classesRegistered := ((f.definitions (f.postorder script)).filterMap f.nearestName?).length } := by
  have reported := h.reported v
  rw [Summary.quiet, Workspace.summary, reported.findings_eq h.defined u,
    reported.classesRegistered_eq h.defined u]

-- If nothing was found, nothing will be.
theorem survey_silent (s : f.Shaped script) (silent : w.findings = []) :
    w.forest.survey options script = w.summary.quiet := by
  have p := h.progress
  have has := has_of_kind? h.kind
  have reported := h.reported v
  have none := reported.findings_eq h.defined u
  rw [silent, eq_comm, List.filterMap_eq_nil_iff] at none
  rw [h.summary_eq v u, survey, h.length_names v u s.formed, List.filterMap_eq_nil_iff.mpr none,
    List.filterMap_eq_nil_iff.mpr fun r hr => ?_]
  have hc := h.mem_postorder_left.mp hr
  refine h.silent_left v u s hc ?_
  by_cases hf : f.Has r
  case pos => exact none r ((h.mem_postorder v).mpr (h.before hf hc))
  case neg => exact unknownAt?_of_kind fun hk => hf (has_of_kind? hk)

/- Conversions that move no definition -/

section Unmoved

variable (s : f.Shaped script)
variable (unmoved : ∀ m member, .merge m member ∈ f.changes options script →
  ∀ d ∈ f.definitions (f.postorder script), ¬f.Contains m.value d)
include s unmoved

omit u in
theorem mem_before_unmoved (hr : r ∈ f.children script) (statement : f.kind? r = some .expressionStatement)
    (left : r ∉ (f.changes options script).statements) (hd : d ∈ f.definitions (f.postorder script))
    (hb : (f.changes options script).image d ∈ w.forest.before script r) : d ∈ f.before script r :=
  h.mem_before_of_image v s hr statement left (.of_isDefinition (mem_definitions.mp hd).right)
    (h.contains_of_definition v hd) (fun m member hm => unmoved m member hm d hd) hb

omit u in
theorem not_overtakes (o : Overtakes f w.forest options script (f.changes options script) m d) : False := by
  obtain ⟨className, candidate, -⟩ := o.method
  exact o.after <| h.mem_before_unmoved v s unmoved o.direct candidate.method.view.statement o.left o.definition
    o.before

theorem unknownAt?_left (hc : w.forest.Contains script r) : w.forest.unknownAt? options script [] r =
    f.unknownAt? options script (f.changes options script) r := by
  have same : w.forest.methodAt? [] r = f.methodAt? (f.changes options script) r :=
    Option.ext fun m => by rw [methodAt?_eq_some, methodAt?_eq_some, h.isMethodAt_iff v s.formed hc]
  rw [unknownAt?, unknownAt?, same]
  refine Option.bind_congr fun m hm => ?_
  have i := (h.isMethodAt_iff v s.formed hc).mpr (methodAt?_eq_some.mp hm)
  obtain ⟨direct, left, parent, i'⟩ := h.direct_left v s hc i
  rw [h.progress.unknown?_eq v i' i parent]
  refine MemberAssignment.unknown?_congr fun className _ =>
    Bool.eq_iff_iff.mpr ⟨fun known => ?_, h.known_left v u s hc i⟩
  obtain ⟨c, first⟩ := Option.isSome_iff_exists.mp known
  obtain ⟨d, hd, named, rfl, mem⟩ := h.definition_left v u s first
  have before := h.mem_before_unmoved v s unmoved direct (i'.of ▸ i'.view.statement) left hd mem
  exact firstOf?_isSome (mem_definitions.mpr ⟨before, (mem_definitions.mp hd).right⟩) named

omit u unmoved in
-- Nothing is found at a statement that is merged: its class is known.
theorem unknownAt?_merged (hm : r ∈ (f.changes options script).statements) :
    f.unknownAt? options script (f.changes options script) r = none := by
  obtain ⟨m, member, merged, rfl⟩ := Log.mem_statements.mp hm
  have was := h.progress.merged merged
  have visited := was.visited
  have direct := was.mem_children v s h.kind ((h.mem_postorder v).mp visited)
  obtain ⟨className, name, belongs⟩ :=
    (h.decided v s).merged direct visited |>.mp ⟨member, merged⟩
  obtain ⟨d, first, -⟩ := belongs.defined
  refine Option.bind_eq_none_iff.mpr fun m' hm' => ?_
  obtain rfl := (methodAt?_eq_some.mp hm').view.unique was.view (methodAt?_eq_some.mp hm').of
  simp [MemberAssignment.unknown?, belongs.ofClass, first]

omit u unmoved in
-- Only the statements of the script that are left tell of unknown classes, before and after.
theorem findings_eq_children : (f.postorder script).filterMap
      (f.unknownAt? options script (f.changes options script)) =
    ((f.children script).filter (· ∉ (f.changes options script).statements)).filterMap
      (f.unknownAt? options script (f.changes options script)) := by
  have has := (has_of_kind? h.kind).ne_none
  refine filterMap_of_sublist (v.nodup_postorder has)
    (List.filter_sublist.trans (v.children_sublist_postorder has)) fun x hx out => ?_
  by_cases left : x ∈ (f.changes options script).statements
  case pos => exact h.unknownAt?_merged v s left
  case neg =>
    refine unknownAt?_of_not_method fun m i => out ?_
    have direct := i.mem_children v s h.kind ((h.mem_postorder v).mp hx)
    exact List.mem_filter.mpr ⟨direct, by simpa using left⟩

omit u unmoved in
theorem findings_eq_children_left :
    (w.forest.postorder script).filterMap (w.forest.unknownAt? options script []) =
      (w.forest.children script).filterMap (w.forest.unknownAt? options script []) := by
  have p := h.progress
  have has := (p.ext.has (has_of_kind? h.kind)).ne_none
  refine filterMap_of_sublist (p.valid.nodup_postorder has)
    (p.valid.children_sublist_postorder has) fun x hx out => ?_
  refine unknownAt?_of_not_method fun m i => out ?_
  obtain ⟨direct, left, -, i'⟩ := h.direct_left v s (h.mem_postorder_left.mp hx) i
  have image := p.image_eq_self (i'.of ▸ i'.view.statement) (by simp)
  exact image ▸ h.mem_children_left v direct left

-- What is found does not change.
theorem findings_left : (w.forest.postorder script).filterMap (w.forest.unknownAt? options script []) =
    (f.postorder script).filterMap (f.unknownAt? options script (f.changes options script)) := by
  have p := h.progress
  rw [h.findings_eq_children v s, h.findings_eq_children_left v s, p.children_script v h.kind,
    List.filterMap_map]
  refine List.filterMap_congr fun c hc => ?_
  have ⟨direct, left⟩ := List.mem_filter.mp hc
  by_cases statement : f.kind? c = some .expressionStatement
  case pos =>
    have mem := h.mem_children_left v direct (by simpa using left)
    rw [p.image_eq_self statement (by simp)] at mem
    rw [Function.comp, p.image_eq_self statement (by simp)]
    exact h.unknownAt?_left v u s unmoved (p.valid.contains_child mem)
  case neg =>
    rw [Function.comp, unknownAt?_of_kind statement, unknownAt?_of_kind]
    rcases p.kind?_image (v.has_child direct) with e | ⟨-, e⟩ <;> simp [e, statement]

theorem survey_unmoved : w.forest.survey options script = w.summary.quiet := by
  rw [h.summary_eq v u, survey, h.length_names v u s.formed, h.findings_left v u s unmoved]

end Unmoved

end Finished

end ClassLift
