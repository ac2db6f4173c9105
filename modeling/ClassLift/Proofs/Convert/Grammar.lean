import ClassLift.Proofs.Convert.Bodies
import ClassLift.Proofs.Convert.Spared

/-!
The grammar of a document after its conversion. Every node still has the children that its kind calls
for, but for one exception: the function of a member becomes a class if it is documented as a
constructor, and the member is left with the class.
-/

namespace ClassLift

open Forest

-- A member that has a class in the place of its function.
structure Misplaced (f g : Forest) (log : Log) (member function cls : Ref) : Prop where
  promoted : .promotion function cls ∈ log
  marked   : f.kind? function = some .function ∧ (f.constructorDoc? function).isSome
  ofMember : f.kind? member = some .memberFunction
  before   : f.children member = [function]
  ofClass  : g.kind? cls = some .classDefinition
  after    : g.children member = [cls]

variable {options : Options} {f g : Forest} {script root s r x member function cls : Ref}
variable {ss : List Ref} {log : Log} {w : Workspace} {summary : Summary} {k : Kind}

theorem Misplaced.not_grammatical (h : Misplaced f g log member function cls) (e : g.Extends f) :
    ¬g.isGrammatical member := by
  intro grammatical
  have kind : g.kind? member = some .memberFunction := (e.kind? (has_of_kind? h.ofMember)).trans h.ofMember
  have permits := permits_of_grammatical grammatical kind
  simp [h.after, h.ofClass, Kind.permits, Kind.accepts] at permits

/- One script -/

section Script

variable (h : Finished f options script w) (v : f.Valid) (grammar : f.Grammatical script)
include h

theorem Finished.marked (hm : .promotion function cls ∈ f.changes options script) :
    f.kind? function = some .function ∧ (f.constructorDoc? function).isSome := by
  have ⟨definition, kind, _⟩ := (h.defined.promoted function).mp ⟨cls, hm⟩
  refine ⟨kind, ?_⟩
  rcases isDefinition_iff.mp (mem_definitions.mp definition).right with hk | ⟨-, marked⟩
  · cases kind.symm.trans hk
  · exact marked

include v grammar

-- An original node that is reached has what its kind calls for, or it is a member whose function is a
-- class now.
theorem Finished.grammatical_or_misplaced (hk : f.kind? r = some k) (hc : w.forest.Contains script r) :
    w.forest.isGrammatical r ∨
      ∃ function cls, Misplaced f w.forest (f.changes options script) r function cls := by
  have p := h.progress
  have hf := has_of_kind? hk
  have kind := (p.ext.kind? hf).trans hk
  have permits := permits_of_grammatical (grammar r (h.before hf hc)) hk
  have image {x : Ref} (hx : x ∈ f.children r) := p.kind?_image (v.has_child hx)
  have children := h.children_reached v grammar.formed hf hc
  by_cases hs : k = .script
  case pos =>
    subst hs
    exact .inl (isGrammatical_of_kind kind rfl)
  by_cases hl : k = .classMembers
  case pos =>
    subst hl
    refine .inl (isGrammatical_of_kind kind ?_)
    simp only [Kind.permits, List.all_map, List.all_eq_true, Function.comp_apply, beq_iff_eq] at permits ⊢
    intro x hx
    rw [p.children_list v hk] at hx
    rcases List.mem_append.mp hx with hx | hx
    case inl =>
      obtain ⟨y, hy, rfl⟩ := List.mem_map.mp hx
      rcases image hy with e | ⟨e, -⟩
      · exact e.trans (permits y hy)
      · cases e.symm.trans (permits y hy)
    case inr =>
      obtain ⟨m, merged⟩ := Log.mem_members.mp (List.mem_filter.mp hx).left
      exact (h.gathered.members merged).kind
  replace children := children (by simp [hk, hl]) (by simp [hk, hs])
  by_cases hm : k = .memberFunction
  case neg =>
    refine .inl (isGrammatical_of_kind kind ?_)
    rw [children, List.map_map]
    exact Kind.permits_of_classes permits hm fun x hx => image hx
  case pos =>
    subst hm
    obtain ⟨function, only, hF⟩ := children_memberFunction (grammar.formed r (h.before hf hc)) hk
    cases hu : (f.changes options script).cls? function
    case none =>
      have hF' : w.forest.kind? function = some .function := (p.ext.kind? (has_of_kind? hF)).trans hF
      refine .inl (isGrammatical_of_kind kind ?_)
      simp [children, only, Log.image_of_none hu, hF', Kind.permits, Kind.accepts]
    case some cls =>
      have promoted := Log.promotion_mem hu
      refine .inr ⟨function, cls, promoted, h.marked promoted, hk, only, (p.promoted promoted).cls, ?_⟩
      simp [children, only, Log.image_of_some hu]

end Script

/- Scripts one after the other -/

theorem Misplaced.of_pass {e : Forest} (p : Pass options f g log s e w)
    (h : Misplaced e w.forest (e.changes options s) member function cls)
    (hw : w.forest.Contains s member) (v : f.Valid) : Misplaced f g log member function cls := by
  have hc := p.before.contains.mp (p.finished.before (has_of_kind? h.ofMember) hw)
  have before := (p.before.agree.children member hc).symm.trans h.before
  have hF : f.Contains s function := hc.trans (v.contains_child (by simp [before]))
  refine ⟨p.mem_log h.promoted, ⟨?_, ?_⟩, ?_, before, ?_, ?_⟩
  · exact p.before.kind? hF ▸ h.marked.left
  · exact p.before.doc hF ▸ h.marked.right
  · exact p.before.kind? hc ▸ h.ofMember
  · exact (p.after.ext.kind? (has_of_kind? h.ofClass)).trans h.ofClass
  · exact (p.after.agree.children member hw).trans h.after

theorem Pass.grammatical_or_misplaced {e : Forest} (p : Pass options f g log s e w) (v : f.Valid)
    (grammar : f.Grammatical s) (hc : g.Contains s r) :
    g.isGrammatical r ∨ ∃ function cls, Misplaced f g log r function cls := by
  have hw := p.after.contains.mp hc
  have he : e.Grammatical s := fun x hx => by
    have hx := p.before.contains.mp hx
    exact p.before.agree.isGrammatical v p.before.ext hx ▸ grammar x hx
  rw [p.after.agree.isGrammatical p.finished.progress.valid p.after.ext hw]
  by_cases hf : e.Has r
  case neg =>
    have has := hw.has (p.after.agree.has)
    exact .inl (p.finished.made hf has).grammatical
  case pos =>
    obtain ⟨k, hk⟩ := hf.exists_kind
    refine (p.finished.grammatical_or_misplaced p.valid he hk hw).imp id ?_
    rintro ⟨function, cls, h⟩
    exact ⟨function, cls, h.of_pass p hw v⟩

/- Whole conversions -/

section Whole

variable (v : f.Valid) (grammar : f.Grammatical root)
variable (passes : Passes options (f.scripts root) f log summary g)
include v grammar passes

theorem Passes.grammatical_root (hk : f.kind? root = some .root) : g.isGrammatical root := by
  have k := passes.converts
  refine isGrammatical_of_kind ((k.ext.kind? (has_of_kind? hk)).trans hk) ?_
  rw [k.children_root v hk, List.map_congr_left fun c hc => k.ext.kind? (v.has_child hc)]
  exact permits_of_grammatical (grammar root .refl) hk

theorem Passes.grammatical_or_misplaced (hk : f.kind? root = some .script ∨ f.kind? root = some .root)
    (hc : g.Contains root r) : g.isGrammatical r ∨ ∃ function cls, Misplaced f g log r function cls := by
  have k := passes.converts
  have below {s : Ref} (hs : s ∈ f.scripts root) (hr : f.Contains root s) (hc : g.Contains s r) :
      g.isGrammatical r ∨ ∃ function cls, Misplaced f g log r function cls := by
    obtain ⟨e, w, p, -⟩ := passes.pass hs
    exact p.grammatical_or_misplaced v (fun x hx => grammar x (hr.trans hx)) hc
  rcases hk with hk | hk
  case inl => exact below (by simp [scripts_of_script hk]) .refl hc
  case inr =>
    by_cases hr : r = root
    case pos => exact .inl (hr ▸ passes.grammatical_root v grammar hk)
    case neg =>
      obtain ⟨s, hs, hc⟩ := k.valid.exists_child (has_of_kind? hk).ne_none hc hr
      rw [k.children_root v hk] at hs
      have permits := permits_of_grammatical (grammar root .refl) hk
      simp only [Kind.permits, Kind.accepts, List.all_map, List.all_eq_true, Function.comp_apply,
        beq_iff_eq] at permits
      exact below ((mem_scripts hk).mpr ⟨hs, permits s hs⟩) (v.contains_child hs) hc

omit grammar in
theorem Passes.contains_misplaced (h : Misplaced f g log member function cls) :
    f.Contains root member := by
  obtain ⟨s, hs, hc⟩ := passes.contains_site h.promoted
  have ne : function ≠ s := fun e => by
    cases h.marked.left.symm.trans (e ▸ kind?_of_mem_scripts hs)
  have above := (contains_of_mem_scripts v hs).trans (hc.parent_of_ne ne)
  exact v.parent_eq (r := function) (p := member) (by simp [h.before]) ▸ above

end Whole

-- A node that does not have what its kind calls for is a member whose function is documented as a
-- constructor and has become a class. There is none if no function of a member is documented so.
theorem grammar_kept (h : f.check = .ok ()) (grammar : f.Grammatical root)
    (ok : f.convert options root = (.ok summary, g)) :
    (∀ r, g.Contains root r → (g.isGrammatical r = false ↔
      ∃ function cls, Misplaced f g (f.allChanges options root) r function cls)) ∧
    ((∀ member, f.Contains root member → f.kind? member = some .memberFunction →
      f.constructorDoc? (f.first member) = none) → g.Grammatical root) := by
  have v := valid_of_check h
  have passes := passes_of_formed v grammar.formed ok
  have kept {r : Ref} (hc : g.Contains root r) :=
    passes.grammatical_or_misplaced v grammar (root_of_ok ok) hc
  refine ⟨fun r hc => ⟨fun no => ?misplaced, fun ⟨function, cls, misplaced⟩ => ?no⟩,
    fun unmarked r hc => ?all⟩
  case misplaced => exact (kept hc).resolve_left (by simp [no])
  case no => exact Bool.eq_false_iff.mpr (misplaced.not_grammatical passes.converts.ext)
  case all =>
    refine (kept hc).resolve_right fun ⟨function, cls, misplaced⟩ => ?_
    have bare := unmarked r (passes.contains_misplaced v misplaced) misplaced.ofMember
    have first : f.first r = function := by simp [first, child, misplaced.before]
    simpa [first ▸ bare] using misplaced.marked.right

-- The member of the class is still one, and so is the method that joins it.
theorem grammar_kept_extended :
    (extended "f").Grammatical (some 0) ∧
      ((extended "f").foldScript {} (some 0)).2.forest.Grammatical (some 0) := by
  have grammar : (extended "f").Grammatical (some 0) := grammatical_of_all rfl _
  have bare (member : Ref) (hk : (extended "f").kind? member = some .memberFunction) :
      (extended "f").constructorDoc? ((extended "f").first member) = none :=
    forall_of_kind (P := fun r => (extended "f").constructorDoc? ((extended "f").first r) = none)
      (by decide) member hk
  have ⟨_, kept⟩ := grammar_kept extended_check.left grammar extended_convert
  exact ⟨grammar, kept fun member _ => bare member⟩

-- The class `A` with a method that is documented as a constructor.
def marked : Forest where
  nodes := #[
    { kind := .script, data := some 0, children := [some 1] },
    { kind := .classDefinition, parent := some 0, children := [some 2, some 3, some 4] },
    { kind := .identifier, data := some 0, parent := some 1 },
    { kind := .empty, parent := some 1 },
    { kind := .classMembers, parent := some 1, children := [some 5] },
    { kind := .memberFunction, data := some 1, parent := some 4, children := [some 6] },
    { kind := .function, doc := some 0, parent := some 5, children := [some 7, some 8, some 9] },
    { kind := .empty, parent := some 6 },
    { kind := .parameterList, parent := some 6 },
    { kind := .block, parent := some 6 }]
  texts := #["A", "f"]
  files := #["a.js"]
  docs := #[.constructor none none]

theorem marked_check : marked.check = .ok () :=
  (check_eq_checkChains _).trans rfl

theorem marked_convert :
    let w := (marked.foldScript {} (some 0)).2
    marked.convert {} (some 0) = (.ok { findings := w.findings, stats := w.stats }, w.forest) :=
  convert_of_foldScript marked_check rfl rfl

theorem marked_run :
    let g := (marked.foldScript {} (some 0)).2.forest
    g.check = .ok () ∧ g.isWithin (some 5) (some 0) ∧ g.isGrammatical (some 5) = false :=
  ⟨(check_eq_checkChains _).trans rfl, rfl, rfl⟩

-- Its method is a class afterwards.
theorem marked_misplaced :
    marked.check = .ok () ∧ marked.Grammatical (some 0) ∧
    ∃ summary g, marked.convert {} (some 0) = (.ok summary, g) ∧ ¬g.Grammatical (some 0) := by
  have ⟨check, within, no⟩ := marked_run
  refine ⟨marked_check, grammatical_of_all rfl _, _, _, marked_convert, fun grammar => ?_⟩
  have reached := ((valid_of_check check).isWithin_iff (by simp)).mp within
  exact absurd (grammar _ reached) (by simp [no])

end ClassLift
