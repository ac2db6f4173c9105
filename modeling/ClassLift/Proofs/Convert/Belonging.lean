import ClassLift.Proofs.Convert.Pending

/-!
Which statements of a script are merged. It can be told from the original tree, but for the functions
that have become classes.
-/

namespace ClassLift

open Forest

-- What is visited before a node.
def Forest.before (f : Forest) (script r : Ref) : List Ref :=
  (f.postorder script).takeWhile (· != r)

-- The assigned function belongs to the class that is defined first with the name in the target, as
-- long as the definition has been visited and is not in the function itself.
structure MemberAssignment.Belongs (m : MemberAssignment) (f : Forest) (options : Options)
    (before : List Ref) (log : Log) (className name : String) : Prop where
  view    : m.IsView f
  method  : f.kind? m.value = some .function
  kept    : ¬∃ cls, .promotion m.value cls ∈ log
  allowed : m.isStatic f → options.mergeStaticMethods
  named   : m.memberName? f = some name
  ofClass : m.className? f = .ok (some className)
  defined : ∃ r, f.firstOf? before className = some r ∧ ¬f.Contains m.value r

variable {f : Forest} {script r : Ref} {done rest : List Ref} {log log' : Log} {w w' : Workspace}
variable {m : MemberAssignment} {options : Options} {change : Option Change}
variable {className name : String}

theorem before_eq (v : f.Valid) (hs : f.Has script)
    (h : f.postorder script = done ++ r :: rest) : f.before script r = done := by
  have fresh := (turn_of_postorder v hs h).fresh
  have ne : ∀ x ∈ done, (x != r) = true := fun x hx => by
    simp only [bne_iff_ne]
    rintro rfl
    exact fresh hx
  rw [before, h, List.takeWhile_append_of_pos ne]
  simp

namespace MemberAssignment

theorem Belongs.congr {before : List Ref} (b : m.Belongs f options before log className name)
    (h : (∃ cls, .promotion m.value cls ∈ log') → ∃ cls, .promotion m.value cls ∈ log) :
    m.Belongs f options before log' className name :=
  { b with kept := fun hc => b.kept (h hc) }

section Visit

variable (p : Progress f done log w) (d : Defined f done log w) (h : Pending f script done log w)
variable (v : f.Valid) (direct : m.statement ∈ f.children script) (fresh : m.statement ∉ done)
include p h v direct fresh

omit p in
-- Whether a class is in the function of a statement does not change before the statement is visited.
theorem contains_value_iff (view : m.IsView f) (method : f.kind? m.value = some .function)
    (kept : log.cls? m.value = none) (hr : f.firstOf? done className = some r) :
    w.forest.Contains m.value (log.image r) ↔ f.Contains m.value r := by
  have sub : f.Contains m.statement m.value :=
    (v.contains_child view.assignment_mem).trans <|
      v.contains_child <| view.value_mem (has_of_kind? method).ne_none
  rcases isDefinition_iff.mp (mem_definitions.mp (mem_of_firstOf? hr).left).right with kr | ⟨kr, -⟩ <;>
    exact h.contains direct fresh sub kept method rfl kr (by simp [Kind.isLeaf])

include d in
theorem Belongs.joins (b : m.Belongs f options done log className name) :
    m.IsView w.forest ∧ m.isMethod w.forest ∧ ∃ cls, m.Joins w options cls className name := by
  have kept := Log.cls?_eq_none.mpr b.kept
  have target := b.view.target.right
  have value := has_of_kind? b.method
  obtain ⟨r, hr, out⟩ := b.defined
  refine ⟨p.isView_kept v b.view (p.not_merged fresh) b.method kept, ?method, log.image r, ?joins⟩
  case method => rw [isMethod, p.ext.isKind value, isKind_iff, b.method]
  case joins =>
    refine ⟨p.isStatic_eq v target ▸ b.allowed, (p.className?_eq v target).trans b.ofClass, ?_,
      (p.memberName?_eq v target).trans b.named, ?_⟩
    · rw [d.lookup, hr, Option.map_some]
    · rw [← Bool.not_eq_true, p.valid.isWithin_iff value.ne_none,
        contains_value_iff h v direct fresh b.view b.method kept hr]
      exact out

include d in
theorem belongs_of_joins {cls : Ref} (view : m.IsView w.forest) (method : m.isMethod w.forest)
    (j : m.Joins w options cls className name) : m.Belongs f options done log className name := by
  obtain ⟨view, value, kept⟩ := p.isView_original v (v.has_child direct) (p.not_merged fresh) view method
  have target := view.target.right
  obtain ⟨r, hr, rfl⟩ := d.of_lookup? j.registered
  refine ⟨view, value, Log.cls?_eq_none.mp kept, p.isStatic_eq v target ▸ j.allowed,
    (p.memberName?_eq v target).symm.trans j.named, (p.className?_eq v target).symm.trans j.ofClass,
    r, hr, ?_⟩
  rw [← contains_value_iff h v direct fresh view value kept hr]
  exact j.not_contains p.valid (has_of_kind? value).ne_none

end Visit

end MemberAssignment

/- Runs -/

-- Every statement that has been visited is merged if it belongs to a class, and only then.
structure Decided (f : Forest) (options : Options) (script : Ref) (done : List Ref) (log : Log) :
    Prop where
  merged : ∀ {m}, m.statement ∈ f.children script → m.statement ∈ done →
    ((∃ member, .merge m member ∈ log) ↔
      ∃ className name, m.Belongs f options (f.before script m.statement) log className name)

namespace Decided

theorem start (f : Forest) (options : Options) (script : Ref) : Decided f options script [] [] where
  merged _ h := nomatch h

-- What has been decided is not decided again.
theorem earlier (h : Decided f options script done log) (p : Progress f done log w) (hr : r ∉ done)
    (visited : w.Visited options r change w') (hm : m.statement ∈ f.children script)
    (hd : m.statement ∈ done) : (∃ member, .merge m member ∈ log ++ change.toList) ↔
      ∃ className name, m.Belongs f options (f.before script m.statement)
        (log ++ change.toList) className name := by
  have k := Defined.Keeps.of_visited p hr visited
  have promoted {className name : String} {log' : Log} {before : List Ref}
      (b : m.Belongs f options before log' className name) :
      (∃ cls, .promotion m.value cls ∈ log ++ change.toList) ↔ ∃ cls, .promotion m.value cls ∈ log := by
    have value := p.below (p.below hd b.view.assignment_mem) <|
      b.view.value_mem (has_of_kind? b.method).ne_none
    exact k.promoted fun e => hr (e ▸ value)
  have same : (∃ member, .merge m member ∈ log ++ change.toList) ↔ ∃ member, .merge m member ∈ log := by
    rcases visited.change_cases with rfl | ⟨cls, rfl⟩ | ⟨m', member, rfl, hm'⟩
    · simp
    · simp
    · have hne : m ≠ m' := by
        rintro rfl
        exact hr (hm' ▸ hd)
      simp [hne]
  rw [same, h.merged hm hd]
  refine exists_congr fun className => exists_congr fun name => ?_
  constructor <;> intro b
  case mp => exact b.congr (promoted b).mp
  case mpr => exact b.congr (promoted b).mpr

theorem now (p : Progress f done log w) (d : Defined f done log w)
    (pending : Pending f script done log w) (v : f.Valid) (hs : f.kind? script = some .script)
    (direct : m.statement ∈ f.children script) (fresh : m.statement ∉ done)
    (visited : w.Visited options m.statement change w') :
    (∃ member, .merge m member ∈ log ++ change.toList) ↔
      ∃ className name, m.Belongs f options done (log ++ change.toList) className name := by
  constructor
  case mp =>
    rintro ⟨member, hm⟩
    rcases List.mem_append.mp hm with hm | hm
    case inl => exact absurd (p.merged hm).visited fresh
    case inr =>
      obtain rfl := Option.mem_toList.mp hm
      obtain ⟨-, view, -, isMethod, cls, className, name, joins, -⟩ := visited.of_merge
      have b := MemberAssignment.belongs_of_joins p d pending v direct fresh view isMethod joins
      exact ⟨className, name, b.congr (by simp)⟩
  case mpr =>
    rintro ⟨className, name, b⟩
    have b := b.congr fun ⟨cls, hc⟩ => ⟨cls, List.mem_append_left _ hc⟩
    have ⟨view, isMethod, cls, joins⟩ := b.joins p d pending v direct fresh
    have onScript : w.forest.kind? (w.forest.parent m.statement) = some .script := by
      rw [p.parent_eq v (v.has_child direct) fresh, v.parent_eq direct,
        p.ext.kind? (has_of_kind? hs), hs]
    obtain ⟨member, rfl⟩ := visited.merges_of_joins view onScript isMethod joins
    exact ⟨member, by simp⟩

theorem step (h : Decided f options script done log) (p : Progress f done log w)
    (d : Defined f done log w) (pending : Pending f script done log w) (v : f.Valid)
    (hs : f.kind? script = some .script) (order : f.postorder script = done ++ r :: rest)
    (visited : w.Visited options r change w') :
    Decided f options script (done ++ [r]) (log ++ change.toList) := by
  have t := turn_of_postorder v (has_of_kind? hs) order
  refine ⟨fun {m} hm hd => ?_⟩
  rcases List.mem_append.mp hd with hd | hd
  case inl => exact h.earlier p t.fresh visited hm hd
  case inr =>
    obtain rfl := List.mem_singleton.mp hd
    rw [before_eq v (has_of_kind? hs) order]
    exact now p d pending v hs hm t.fresh visited

end Decided

theorem Run.decided (run : Run options f done log w) (v : f.Valid) (s : f.Shaped script)
    (hs : f.kind? script = some .script) (h : f.postorder script = done ++ rest) :
    Decided f options script done log := by
  have has := has_of_kind? hs
  refine run.invariant (motive := fun done log _ => Decided f options script done log) v has h
    (.start f options script) fun {done log w r rest change w'} order run h visited => ?_
  exact h.step (run.progress v has order) (run.defined v has order) (run.pending v s hs order) v hs
    order visited

end ClassLift
