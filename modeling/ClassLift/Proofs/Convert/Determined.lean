import ClassLift.Proofs.Convert.Findings
import ClassLift.Proofs.Convert.Resting

/-!
What can be told from the original trees of a conversion: which functions become classes, which statements
are merged, and into which class. Of the options only the one for static members makes a difference.
-/

namespace ClassLift

open Forest

variable {options : Options} {f g : Forest} {script s t r x cls : Ref} {ss : List Ref} {log : Log}
variable {w : Workspace} {m : MemberAssignment} {member : Ref} {summary : Summary}

-- The class of a statement is defined before it and not in its own function, which stays a function.
structure MemberAssignment.HasClass (m : MemberAssignment) (f : Forest) (script : Ref) : Prop where
  view    : m.IsView f
  method  : f.kind? m.value = some .function
  kept    : f.becomesClass script m.value = false
  named   : (m.memberName? f).isSome
  defined : ∃ className r, m.className? f = .ok (some className) ∧
    f.firstOf? (f.before script m.statement) className = some r ∧ ¬f.Contains m.value r

/- One script -/

theorem Finished.promoted_iff (h : Finished f options script w) (v : f.Valid) (hx : f.Contains script x) :
    (∃ cls, .promotion x cls ∈ f.changes options script) ↔ f.becomesClass script x :=
  h.defined.promoted_iff v (has_of_kind? h.kind) (List.append_nil _).symm ((h.mem_postorder v).mpr hx)

theorem Finished.merged_iff (h : Finished f options script w) (v : f.Valid) (s : f.Shaped script)
    (direct : m.statement ∈ f.children script) :
    (∃ member, .merge m member ∈ f.changes options script) ↔
      m.HasClass f script ∧ (m.isStatic f → options.mergeStaticMethods) := by
  have below := v.contains_child direct
  have promoted (view : m.IsView f) (method : f.kind? m.value = some .function) :=
    h.promoted_iff v (below.trans (view.contains_value v (has_of_kind? method).ne_none))
  rw [(h.decided v s).merged direct ((h.mem_postorder v).mpr below)]
  constructor
  case mp =>
    intro ⟨className, name, b⟩
    have kept := b.kept
    rw [promoted b.view b.method, Bool.not_eq_true] at kept
    obtain ⟨r, first, out⟩ := b.defined
    exact ⟨⟨b.view, b.method, kept, by simp [b.named], className, r, b.ofClass, first, out⟩, b.allowed⟩
  case mpr =>
    intro ⟨⟨view, method, kept, named, className, r, ofClass, first, out⟩, allowed⟩
    obtain ⟨name, named⟩ := Option.isSome_iff_exists.mp named
    refine ⟨className, name, view, method, ?_, allowed, named, ofClass, r, first, out⟩
    rw [promoted view method, kept]
    simp

/- Scripts that are spared -/

namespace Spares

variable (p : Spares f g t) (v : f.Valid)
include p v

theorem becomesClass_eq (hx : f.Contains t x) : g.becomesClass t x = f.becomesClass t x := by
  rw [becomesClass, becomesClass, isKind, p.kind? hx, ← isKind, p.doc hx]
  cases hk : f.isKind x .function
  case false => rfl
  case true =>
    rw [isTaken, isTaken, p.name hx (by simp [isKind_iff.mp hk])]
    simp only [p.firstOf?_before v]

omit v in
theorem members_eq (hx : f.Contains t x) : g.members x = f.members x := by
  rw [members, members, isKind, p.kind? hx, ← isKind, last, p.agree.children x hx, ← last]

theorem hasClass_iff (hm : f.Contains t m.statement) : m.HasClass g t ↔ m.HasClass f t := by
  have below (view : m.IsView f) (hn : m.value ≠ none) : f.Contains t m.value :=
    hm.trans (view.contains_value v hn)
  constructor
  case mp =>
    intro ⟨view, method, kept, named, className, r, ofClass, first, out⟩
    have view := p.agree.isView v p.ext hm view
    have value := (has_of_kind? method).ne_none
    have below := below view value
    have ⟨sameClass, _, sameName⟩ := p.target view.target.right
    rw [p.kind? below] at method
    rw [p.becomesClass_eq v below] at kept
    rw [p.firstOf?_before v] at first
    rw [p.agree.contains value below] at out
    exact ⟨view, method, kept, sameName ▸ named, className, r, sameClass ▸ ofClass, first, out⟩
  case mpr =>
    intro ⟨view, method, kept, named, className, r, ofClass, first, out⟩
    have value := (has_of_kind? method).ne_none
    have below := below view value
    have ⟨sameClass, _, sameName⟩ := p.target view.target.right
    rw [← p.kind? below] at method
    rw [← p.becomesClass_eq v below] at kept
    rw [← p.firstOf?_before v] at first
    rw [← p.agree.contains value below] at out
    exact ⟨p.isView v hm view, method, kept, sameName ▸ named, className, r, sameClass ▸ ofClass, first, out⟩

end Spares

/- Whole conversions -/

namespace Passes

variable (h : Passes options ss f log summary g) (v : f.Valid)
include h

-- The trees of the scripts have nothing in common.
theorem script_unique (hs : s ∈ ss) (ht : t ∈ ss) (hx : f.Contains s x) (hx' : f.Contains t x) : s = t := by
  induction h
  case nil => cases hs
  case cons first ss f g w log summary valid _ apart run rest ih =>
    have spared {t : Ref} (ht : t ∈ ss) : w.forest.Contains t x ↔ f.Contains t x :=
      (spares_of_run valid (apart t ht).left (apart t ht).right run).contains
    rcases List.mem_cons.mp hs with rfl | hs' <;> rcases List.mem_cons.mp ht with rfl | ht'
    · rfl
    · exact absurd hx' ((apart t ht').right x hx)
    · exact absurd hx ((apart s hs').right x hx')
    · exact ih hs' ht' ((spared hs').mpr hx) ((spared ht').mpr hx')

-- A function becomes only one class.
theorem cls?_eq (hm : .promotion x cls ∈ log) : log.cls? x = some cls := by
  obtain ⟨s, hs, site, e, w, p, hm'⟩ := h.pass_of_mem hm
  have hx : f.Contains s x := site
  rw [p.cls?_eq hx]
  exact p.finished.cls?_eq p.valid hm'

include v

theorem promoted_iff : (∃ cls, .promotion x cls ∈ log) ↔
    ∃ s ∈ ss, f.Contains s x ∧ f.becomesClass s x := by
  constructor
  case mp =>
    intro ⟨cls, hm⟩
    obtain ⟨s, hs, site, e, w, p, hm'⟩ := h.pass_of_mem hm
    have hx : f.Contains s x := site
    refine ⟨s, hs, hx, ?_⟩
    rw [← p.before.becomesClass_eq v hx]
    exact (p.finished.promoted_iff p.valid (p.before.contains.mpr hx)).mp ⟨cls, hm'⟩
  case mpr =>
    intro ⟨s, hs, hx, becomes⟩
    obtain ⟨e, w, p, -⟩ := h.pass hs
    rw [← p.before.becomesClass_eq v hx] at becomes
    have ⟨cls, hm⟩ := (p.finished.promoted_iff p.valid (p.before.contains.mpr hx)).mpr becomes
    exact ⟨cls, p.mem_log hm⟩

theorem cls?_isSome_iff : (log.cls? x).isSome ↔ ∃ s ∈ ss, f.Contains s x ∧ f.becomesClass s x := by
  rw [← h.promoted_iff v, ← Option.ne_none_iff_isSome, ne_eq, Log.cls?_eq_none, not_not]

theorem merged_iff (shaped : f.isShaped) : (∃ member, .merge m member ∈ log) ↔
    ∃ s ∈ ss, m.statement ∈ f.children s ∧ m.HasClass f s ∧ (m.isStatic f → options.mergeStaticMethods) := by
  have merged {s : Ref} {e : Forest} {w : Workspace} (p : Pass options f g log s e w)
      (direct : m.statement ∈ f.children s) : (∃ member, .merge m member ∈ e.changes options s) ↔
        m.HasClass f s ∧ (m.isStatic f → options.mergeStaticMethods) := by
    rw [p.finished.merged_iff p.valid (p.before.shaped v (shaped_of_isShaped shaped s))
      (p.before.agree.children s .refl ▸ direct), p.before.hasClass_iff v (v.contains_child direct)]
    refine and_congr_right fun i => ?_
    rw [(p.before.target i.view.target.right).right.left]
  constructor
  case mp =>
    intro ⟨member, hm⟩
    obtain ⟨s, hs, site, e, w, p, hm⟩ := h.pass_of_mem hm
    have direct := (p.finished.progress.merged hm).mem_children p.valid
      (p.before.shaped v (shaped_of_isShaped shaped s)) p.finished.kind (p.before.contains.mpr site)
    rw [p.before.agree.children s .refl] at direct
    exact ⟨s, hs, direct, (merged p direct).mp ⟨member, hm⟩⟩
  case mpr =>
    intro ⟨s, hs, direct, claimed⟩
    obtain ⟨e, w, p, -⟩ := h.pass hs
    have ⟨member, hm⟩ := (merged p direct).mpr claimed
    exact ⟨member, p.mem_log hm⟩

-- What is merged does not become a class.
theorem value_kept (hm : .merge m member ∈ log) : log.cls? m.value = none := by
  obtain ⟨s, hs, site, e, w, p, hm'⟩ := h.pass_of_mem hm
  have value := (has_of_kind? (p.finished.progress.merged hm').value).ne_none
  rw [p.cls?_eq (site.trans ((h.isView hm).contains_value v value))]
  exact (p.finished.value_kept p.valid hm').left

-- The class that a member is in is the first one of its script with the name in the target.
theorem homes (hm : .merge m member ∈ log) : ∃ s ∈ ss, f.Contains s m.statement ∧ ∃ className r,
    m.className? f = .ok (some className) ∧ f.firstOf? (f.postorder s) className = some r ∧
      g.kind? (log.image r) = some .classDefinition ∧ g.parent member = g.members (log.image r) := by
  obtain ⟨s, hs, site, e, w, p, hm'⟩ := h.pass_of_mem hm
  have done := p.finished
  obtain ⟨className, r, ofClass, first, home⟩ := done.gathered.homes hm'
  have ⟨kind, reached⟩ := done.reached.registered done.progress done.defined
    (fun x => (done.mem_postorder p.valid).mp) first
  rw [p.before.postorder_eq v .refl, p.before.firstOf?_eq (p.before.inside v)] at first
  have below := p.before.inside v r (mem_definitions.mp (mem_of_firstOf? first).left).left
  have target := (p.before.target (h.isView hm).target.right).left
  refine ⟨s, hs, site, className, r, target ▸ ofClass, first, ?_⟩
  rw [p.image_eq below]
  constructor
  · rw [p.after.ext.kind? (has_of_kind? kind), kind]
  · rw [p.after.parent (done.member_reached p.valid hm'), p.after.members_eq reached, home]

end Passes

end ClassLift
