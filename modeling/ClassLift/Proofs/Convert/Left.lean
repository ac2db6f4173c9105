import ClassLift.Proofs.Convert.Converted
import ClassLift.Proofs.Convert.Merging

/-!
What is left on a converted script. A method that has not been merged is what it was, and it has the same
classes before it as before the conversion, unless merges have moved them.
-/

namespace ClassLift

open Forest

variable {options : Options} {f : Forest} {script r c d : Ref} {log : Log} {w : Workspace}
variable {m : MemberAssignment} {member : Ref} {className : String}

namespace Finished

variable (h : Finished f options script w)
include h

theorem has_statement (hk : w.forest.kind? r = some .expressionStatement) : f.Has r := by
  by_contra hf
  obtain ⟨k, hk', made⟩ := (h.made hf (has_of_kind? hk)).kind
  cases hk.symm.trans hk'
  cases made

theorem mem_postorder_left : r ∈ w.forest.postorder script ↔ w.forest.Contains script r :=
  h.progress.valid.mem_postorder (h.progress.ext.has (has_of_kind? h.kind)).ne_none

variable (v : f.Valid)
include v

/- Methods -/

section Methods

variable (s : f.Formed script) (hc : w.forest.Contains script r)
include s hc

theorem parent_statement (hk : f.kind? r = some .expressionStatement) :
    r ∉ (f.changes options script).statements ∧ w.forest.parent r = f.parent r := by
  have p := h.progress
  have hf := has_of_kind? hk
  have left : r ∉ (f.changes options script).statements := fun hm => by
    obtain ⟨m, member, merged, rfl⟩ := Log.mem_statements.mp hm
    exact h.not_lost hf hc ⟨_, merged, .inl rfl⟩
  have ne : r ≠ script := by
    rintro rfl
    cases hk.symm.trans h.kind
  have above := (h.before hf hc).parent_of_ne ne
  have hp := above.ne_none (has_of_kind? h.kind).ne_none
  have ht : r ∉ (f.changes options script).taken := fun ht => by
    obtain ⟨m, member, merged, rfl | rfl⟩ := Log.mem_taken.mp ht
    · exact left (Log.mem_statements.mpr ⟨m, member, merged, rfl⟩)
    · cases hk.symm.trans (p.merged merged).value
  exact ⟨left, p.parent_kept v hp ht (h.cls?_none hf hc) (h.cls?_parent_none v s above (by simp [hk]) hp)⟩

theorem isMethodAt_iff : m.IsMethodAt w.forest [] r ↔ m.IsMethodAt f (f.changes options script) r := by
  have p := h.progress
  constructor <;> intro i
  case mp =>
    have hk := i.of ▸ i.view.statement
    have hf := h.has_statement hk
    have ⟨left, parent⟩ := h.parent_statement v s hc (p.kind?_eq hf hk)
    exact (p.isMethodAt_iff v hf left parent).mp i
  case mpr =>
    have hk := i.of ▸ i.view.statement
    have ⟨left, parent⟩ := h.parent_statement v s hc hk
    exact (p.isMethodAt_iff v (has_of_kind? hk) left parent).mpr i

theorem isCandidate_iff : m.IsCandidate w.forest options [] r className ↔
    m.IsCandidate f options (f.changes options script) r className := by
  have p := h.progress
  constructor <;> rintro ⟨method, allowed, ofClass, named⟩
  case mp =>
    have i := (h.isMethodAt_iff v s hc).mp method
    have target := i.view.target.right
    rw [p.isStatic_eq v target] at allowed
    rw [p.className?_eq v target] at ofClass
    rw [p.memberName?_eq v target] at named
    exact ⟨i, allowed, ofClass, named⟩
  case mpr =>
    have target := method.view.target.right
    rw [← p.isStatic_eq v target] at allowed
    rw [← p.className?_eq v target] at ofClass
    rw [← p.memberName?_eq v target] at named
    exact ⟨(h.isMethodAt_iff v s hc).mpr method, allowed, ofClass, named⟩

end Methods

/- The order of the script -/

theorem mem_children_left (hc : c ∈ f.children script) (left : c ∉ (f.changes options script).statements) :
    (f.changes options script).image c ∈ w.forest.children script := by
  rw [h.progress.children_script v h.kind, List.mem_map]
  exact ⟨c, List.mem_filter.mpr ⟨hc, by simpa using left⟩, rfl⟩

section Order

variable (s : f.Shaped script) (hr : r ∈ f.children script)
variable (statement : f.kind? r = some .expressionStatement)
variable (left : r ∉ (f.changes options script).statements)
include hr statement left

omit s in
theorem contains_left : w.forest.Contains script r :=
  have mem := h.mem_children_left v hr left
  h.progress.valid.contains_child (h.progress.image_eq_self statement (by simp) ▸ mem)

-- What is left of the script is in the order that it had.
theorem place_le_iff (hc : c ∈ f.children script) (kept : c ∉ (f.changes options script).statements) :
    w.forest.place script ((f.changes options script).image c) ≤ w.forest.place script r ↔
      f.place script c ≤ f.place script r := by
  have p := h.progress
  obtain ⟨front, back, split⟩ := List.append_of_mem hr
  have split' : w.forest.children script =
      (front.filter (· ∉ (f.changes options script).statements)).map (f.changes options script).image ++
        r :: (back.filter (· ∉ (f.changes options script).statements)).map
          (f.changes options script).image := by
    rw [p.children_script v h.kind, split]
    simp [left, p.image_eq_self statement]
  have inj {x : Ref} (hx : x ∈ f.children script)
      (e : (f.changes options script).image x = (f.changes options script).image c) : x = c :=
    h.gathered.image_inj p v (v.has_child hx) (v.has_child hc) e
  rw [Forest.place_le_iff p.valid split', Forest.place_le_iff v split, List.mem_map]
  refine or_congr ?_ ?_
  case refine_1 =>
    constructor
    case mp =>
      rintro ⟨x, hx, e⟩
      have hx := (List.mem_filter.mp hx).left
      exact inj (by simp [split, hx]) e ▸ hx
    case mpr => exact fun hm => ⟨c, List.mem_filter.mpr ⟨hm, by simpa using kept⟩, rfl⟩
  case refine_2 =>
    rw [p.image_eq_iff (has_of_kind? statement) (p.cls?_none_of_kind statement (by simp))]

include s

-- What was visited before a statement still is.
theorem mem_before_of_mem (hd : IsDefining f d) (hb : d ∈ f.before script r) :
    (f.changes options script).image d ∈ w.forest.before script r := by
  have p := h.progress
  have has := has_of_kind? h.kind
  have mem := p.image_eq_self statement (by simp) ▸ h.mem_children_left v hr left
  obtain ⟨ne, c, hc, below, place⟩ := (mem_before_iff v has hr).mp hb
  obtain ⟨c', l⟩ := (h.forward v s).located hc below hd
  refine (mem_before_iff p.valid (p.ext.has has) mem).mpr ⟨fun e => ?_, _, ?_, l.inside, ?_⟩
  · exact ne (p.eq_of_image e (has_of_kind? statement))
  · exact h.mem_children_left v l.child l.kept
  · exact (h.place_le_iff v hr statement left l.child l.kept).mpr (l.forward.trans place)

-- What is visited before a statement has always been, if no merge has moved it.
theorem mem_before_of_image (hd : IsDefining f d) (hc : f.Contains script d)
    (stays : ∀ m member, .merge m member ∈ f.changes options script → ¬f.Contains m.value d)
    (hb : (f.changes options script).image d ∈ w.forest.before script r) : d ∈ f.before script r := by
  have p := h.progress
  have has := has_of_kind? h.kind
  have image := p.image_eq_self statement (by simp)
  have mem := image ▸ h.mem_children_left v hr left
  have ne : d ≠ script := by
    rintro rfl
    rcases hd with hd | hd <;> cases hd.symm.trans h.kind
  obtain ⟨c, hc, below⟩ := v.exists_child has.ne_none hc ne
  obtain ⟨c', l⟩ := (h.forward v s).located hc below hd
  obtain rfl : c' = c := l.stays.resolve_right fun ⟨m, member, merged, hm⟩ => stays m member merged hm
  obtain ⟨ne, c, hc', below', place⟩ := (mem_before_iff p.valid (p.ext.has has) mem).mp hb
  obtain rfl := p.valid.child_unique hc' (h.mem_children_left v l.child l.kept) below' l.inside
  refine (mem_before_iff v has hr).mpr ⟨?_, c', hc, below, ?_⟩
  · rintro rfl
    exact ne image
  · exact (h.place_le_iff v hr statement left l.child l.kept).mp place

end Order

-- What a method had in its function is still there, as long as it is not merged.
theorem contains_value (s : f.Shaped script) (i : m.IsMethodAt f (f.changes options script) r)
    (hr : r ∈ f.children script) (left : r ∉ (f.changes options script).statements)
    (ofClass : m.className? f = .ok (some className)) (hd : IsDefining f d)
    (hc : f.Contains m.value d) :
    w.forest.Contains m.value ((f.changes options script).image d) := by
  have p := h.progress
  obtain ⟨rfl, view, onScript, value, kept⟩ := i
  have below := view.contains_value v (has_of_kind? value).ne_none
  obtain ⟨c, l⟩ := (h.forward v s).located hr (below.trans hc) hd
  -- No other statement has had the same node below it.
  obtain rfl : c = m.statement := l.stays.resolve_right fun ⟨m', member, merged, hm⟩ => left <| by
    have was := p.merged merged
    have visited := (h.mem_postorder v).mp was.visited
    have inside := (was.view.contains_value v (has_of_kind? was.value).ne_none).trans hm
    rw [← v.child_unique (was.mem_children v s h.kind visited) hr inside (below.trans hc)]
    exact Log.mem_statements.mpr ⟨m', member, merged, rfl⟩
  have site := p.site v (s.formed.below (v.contains_child hr)) view (p.isView_kept v view left value kept)
    left kept ((p.className?_eq v view.target.right).trans ofClass)
  have inside := l.inside
  rw [Log.image_of_none (p.cls?_none_of_kind view.statement (by simp))] at inside
  exact (hd.image p).contains_value site p.valid p.ext inside

end Finished

end ClassLift
