import ClassLift.Proofs.Convert.Again
import ClassLift.Proofs.Convert.Spared

/-!
Scripts that are at rest among others. What a method or a finding depends on is in the tree of its own
script, so that the conversions of the others make no difference.
-/

namespace ClassLift

open Forest

variable {options : Options} {f g e : Forest} {s t x d : Ref} {log : Log} {w : Workspace}
variable {m : MemberAssignment} {className : String}

/- A script that is spared -/

namespace Spares

variable (p : Spares f g t) (v : f.Valid)
include p v

theorem shaped (s : f.Shaped t) : g.Shaped t := by
  intro x hx
  have hx := p.contains.mp hx
  have has := hx.has p.agree.has
  have isRoot (h : f.isKind (f.parent x) .root) : g.isKind (f.parent x) .root :=
    (p.ext.isKind (has_of_kind? (isKind_iff.mp h)) _).trans h
  have fits := s x hx
  rw [Forest.fits, p.kind? hx, p.agree.kinds v p.ext hx, p.parent hx]
  unfold Forest.fits at fits
  split <;> simp_all
  exact fits.right.imp id isRoot

theorem before_eq : g.before t x = f.before t x := by
  rw [before, before, p.postorder_eq v .refl]

theorem inside : ∀ x ∈ f.postorder t, f.Contains t x := fun _ =>
  (v.mem_postorder p.agree.has.ne_none).mp

theorem definitions_postorder : g.definitions (g.postorder t) = f.definitions (f.postorder t) := by
  rw [p.postorder_eq v .refl, p.definitions_eq (p.inside v)]

theorem nearestName?_eq (hd : d ∈ f.definitions (f.postorder t)) : g.nearestName? d = f.nearestName? d := by
  have ⟨mem, definition⟩ := mem_definitions.mp hd
  have kind := isDefinition_iff.mp definition
  exact p.name (p.inside v d mem) (by simpa using kind.imp id And.left)

theorem firstOf?_before : g.firstOf? (g.before t x) className = f.firstOf? (f.before t x) className := by
  rw [p.before_eq v, p.firstOf?_eq fun x hx => p.inside v x (before_isPrefix.subset hx)]

theorem isUnambiguous (u : f.IsUnambiguous (f.postorder t)) : g.IsUnambiguous (g.postorder t) := by
  refine isUnambiguous_of_inj fun hr hd hn hn' => ?_
  rw [p.definitions_postorder v] at hr hd
  rw [p.nearestName?_eq v hr] at hn
  rw [p.nearestName?_eq v hd] at hn'
  exact u.eq_of_name hr hd hn hn'

/- Methods -/

theorem isView (hm : f.Contains t m.statement) (i : m.IsView f) : m.IsView g := by
  have ha := hm.trans (v.contains_child i.assignment_mem)
  have ht := ha.trans (v.contains_child i.target_mem)
  refine ⟨(p.kind? hm).trans i.statement, ⟨?_, (p.kind? ha).trans i.assignment.right⟩,
    ⟨?_, (p.kind? ht).trans i.target.right⟩, ?_, ?_⟩
  · rw [i.assignment.left, first, first, p.agree.child hm]
  · rw [i.target.left, first, first, p.agree.child ha]
  · rw [i.value, second, second, p.agree.child ha]
  · have value (hn : m.value ≠ none) : f.Has m.value := v.has_child (i.value_mem hn)
    rw [i.doc, p.ext.docIndex? (hm.has p.agree.has), p.ext.docIndex? (ha.has p.agree.has),
      Agree.docIndex? p.ext value]

section Methods

variable (hx : f.Contains t x)
include hx

theorem isMethodAt_iff : m.IsMethodAt g log x ↔ m.IsMethodAt f log x := by
  have inValue (i : m.IsView f) (of : m.statement = x) (hn : m.value ≠ none) : f.Contains t m.value :=
    (of ▸ hx).trans (i.contains_value v hn)
  constructor
  case mp =>
    rintro ⟨of, view, onScript, value, kept⟩
    have view := p.agree.isView v p.ext (of ▸ hx) view
    rw [p.kind? (inValue view of (has_of_kind? value).ne_none)] at value
    rw [p.parent hx] at onScript
    have above := v.has_parent (has_of_kind? onScript).ne_none
    exact ⟨of, view, p.ext.kind? above ▸ onScript, value, kept⟩
  case mpr =>
    rintro ⟨of, view, onScript, value, kept⟩
    refine ⟨of, p.isView v (of ▸ hx) view, ?_, ?_, kept⟩
    · rw [p.parent hx, p.ext.kind? (has_of_kind? onScript), onScript]
    · rw [p.kind? (inValue view of (has_of_kind? value).ne_none), value]

theorem isCandidate_iff :
    m.IsCandidate g options log x className ↔ m.IsCandidate f options log x className := by
  constructor <;> rintro ⟨method, allowed, ofClass, named⟩
  case mp =>
    have i := (p.isMethodAt_iff v hx).mp method
    have ⟨h₁, h₂, h₃⟩ := p.target i.view.target.right
    exact ⟨i, h₂ ▸ allowed, h₁ ▸ ofClass, h₃ ▸ named⟩
  case mpr =>
    have ⟨h₁, h₂, h₃⟩ := p.target method.view.target.right
    exact ⟨(p.isMethodAt_iff v hx).mpr method, h₂ ▸ allowed, h₁ ▸ ofClass, h₃ ▸ named⟩

theorem unknownAt?_eq : g.unknownAt? options t log x = f.unknownAt? options t log x := by
  have same : g.methodAt? log x = f.methodAt? log x :=
    Option.ext fun m => by rw [methodAt?_eq_some, methodAt?_eq_some, p.isMethodAt_iff v hx]
  rw [unknownAt?, unknownAt?, same]
  refine Option.bind_congr fun m hm => ?_
  have i := methodAt?_eq_some.mp hm
  obtain ⟨h₁, h₂, -⟩ := p.target i.view.target.right
  have target : f.Contains t m.target :=
    (i.of ▸ hx).trans <| (v.contains_child i.view.assignment_mem).trans (v.contains_child i.view.target_mem)
  simp only [MemberAssignment.unknown?, h₁, h₂, p.finding target, p.firstOf?_before v]

end Methods

theorem survey_eq : g.survey options t = f.survey options t := by
  rw [survey, survey, p.definitions_postorder v, p.postorder_eq v .refl,
    List.filterMap_congr fun x hx => p.unknownAt?_eq v (p.inside v x hx),
    List.filterMap_congr fun x hx => p.nearestName?_eq v hx]

theorem rests_iff : Rests g options t ↔ Rests f options t := by
  constructor <;> rintro ⟨kind, unmarked, stays⟩
  case mp =>
    refine ⟨p.kind? .refl ▸ kind, fun hc hk => ?_, fun hc i first => ?_⟩
    · exact p.doc hc ▸ unmarked (p.contains.mpr hc) ((p.kind? hc).trans hk)
    · have value := has_of_kind? i.method.value
      have below := hc.trans (i.method.of ▸ i.method.view.contains_value v value.ne_none)
      rw [← p.agree.contains value.ne_none below]
      exact stays (p.contains.mpr hc) ((p.isCandidate_iff v hc).mpr i) ((p.firstOf?_before v).trans first)
  case mpr =>
    refine ⟨(p.kind? .refl).trans kind, fun hc hk => ?_, fun hc i first => ?_⟩
    · have hc := p.contains.mp hc
      exact (p.doc hc).trans (unmarked hc (p.kind? hc ▸ hk))
    · have hc := p.contains.mp hc
      have i := (p.isCandidate_iff v hc).mp i
      have value := has_of_kind? i.method.value
      have below := hc.trans (i.method.of ▸ i.method.view.contains_value v value.ne_none)
      rw [p.agree.contains value.ne_none below]
      exact stays hc i (p.firstOf?_before v ▸ first)

end Spares

/- The turn of a script -/

namespace Pass

variable (p : Pass options f g log s e w) (v : f.Valid)
include p v

omit v in
theorem image_eq_of_definition (hd : d ∈ e.definitions (e.postorder s)) :
    log.image d = (e.changes options s).image d :=
  p.image_eq <| p.before.contains.mp <| p.finished.contains_of_definition p.valid hd

omit p v in
theorem isCandidate_iff (p : Pass options f g log s e w) (v : f.Valid) (hx : f.Contains s x) :
    m.IsCandidate f options log x className ↔ m.IsCandidate e options (e.changes options s) x className := by
  rw [p.before.isCandidate_iff v hx]
  have cls?_eq (i : m.IsView f) (of : m.statement = x) (value : m.value ≠ none) :=
    p.cls?_eq ((of ▸ hx).trans (i.contains_value v value))
  constructor <;> intro i <;> have method := i.method <;>
    have same := cls?_eq method.view method.of (has_of_kind? method.value).ne_none
  · exact i.congr same.symm
  · exact i.congr same

-- What is overtaken in the turn of the script is overtaken in the whole conversion.
theorem overtakes_iff : Overtakes f g options s log m d ↔
    Overtakes e w.forest options s (e.changes options s) m d := by
  have h := p.finished
  have children := p.before.agree.children s .refl
  have definitions := p.before.definitions_postorder v
  have named (hd : d ∈ e.definitions (e.postorder s)) := p.before.nearestName?_eq v (definitions ▸ hd)
  have apart (direct : m.statement ∈ e.children s) (left : m.statement ∉ (e.changes options s).statements)
      (i : m.IsMethodAt e (e.changes options s) m.statement) {x : Ref} :
      g.Contains m.value x ↔ w.forest.Contains m.value x := by
    have left := h.contains_left p.valid direct i.view.statement left
    have value := (has_of_kind? i.value).ne_none
    have method := (h.isMethodAt_iff p.valid p.formed left).mpr i
    exact p.after.agree.contains value (left.trans (method.view.contains_value h.progress.valid value))
  constructor <;> rintro ⟨⟨className, candidate, hn⟩, direct, left, definition, after, before, out⟩
  case mp =>
    have below := v.contains_child direct
    have candidate := (p.isCandidate_iff v below).mp candidate
    have left := (p.mem_statements_iff below).not.mp left
    rw [← children] at direct
    rw [← definitions] at definition
    rw [p.image_eq_of_definition definition] at before out
    refine ⟨⟨className, candidate, (named definition).trans hn⟩, direct, left, definition, ?_, ?_, ?_⟩
    · rwa [p.before.before_eq v]
    · rwa [← p.after.before_eq h.progress.valid]
    · rwa [← apart direct left candidate.method]
  case mpr =>
    have below := v.contains_child (children ▸ direct)
    refine ⟨⟨className, (p.isCandidate_iff v below).mpr candidate, (named definition).symm.trans hn⟩,
      children ▸ direct, (p.mem_statements_iff below).not.mpr left, definitions ▸ definition, ?_, ?_, ?_⟩
    · rwa [← p.before.before_eq v]
    · rwa [p.image_eq_of_definition definition, p.after.before_eq h.progress.valid]
    · rwa [p.image_eq_of_definition definition, apart direct left candidate.method]

theorem rests_iff (u : e.IsUnambiguous (e.postorder s)) (shaped : f.Shaped s) :
    Rests g options s ↔ ∀ m d, ¬Overtakes f g options s log m d := by
  rw [p.after.rests_iff p.finished.progress.valid, p.finished.rests_iff p.valid u (p.before.shaped v shaped)]
  simp only [p.overtakes_iff v]

omit v in
theorem isUnambiguous (u : e.IsUnambiguous (e.postorder s)) : g.IsUnambiguous (g.postorder s) :=
  p.after.isUnambiguous p.finished.progress.valid (p.finished.isUnambiguous_left p.valid u p.formed)

omit v in
-- The second conversion of the script changes nothing.
theorem again (u : e.IsUnambiguous (e.postorder s)) (rests : Rests g options s)
    (same : w.forest.survey options s = w.summary.quiet) :
    g.convertScript options s = (.ok w.summary.quiet, g) := by
  rw [rests.convertScript p.after.valid (p.isUnambiguous u), p.after.survey_eq p.finished.progress.valid, same]

end Pass

end ClassLift
