import ClassLift.Proofs.Convert.Finished
import ClassLift.Proofs.Convert.Preservation

/-!
A script among others. The conversions of the other scripts leave its tree alone, and with it all
that is read there.
-/

namespace ClassLift

open Forest

variable {options : Options} {f g h : Forest} {s t x : Ref} {ss done : List Ref} {log : Log}
variable {w : Workspace} {m : MemberAssignment} {summary : Summary}

-- The tree below `t` is the same, and what is read there is, too.
structure Spares (f g : Forest) (t : Ref) : Prop where
  valid   : g.Valid
  ext     : g.Extends f
  agree   : Agree f g t
  parent  : ∀ {x}, f.Contains t x → g.parent x = f.parent x
  name    : ∀ {x}, f.Contains t x → f.kind? x ∈ [some Kind.classDefinition, some Kind.function] →
    g.nearestName? x = f.nearestName? x
  doc     : ∀ {x}, f.Contains t x → g.constructorDoc? x = f.constructorDoc? x
  finding : ∀ {x}, f.Contains t x → ∀ problem name,
    Finding.at g problem x name = Finding.at f problem x name
  target  : ∀ {m : MemberAssignment}, f.kind? m.target = some .propertyAccess →
    m.className? g = m.className? f ∧ m.isStatic g = m.isStatic f ∧ m.memberName? g = m.memberName? f

theorem Progress.spares (p : Progress f done log w) (v : f.Valid) (ht : f.Has t)
    (fresh : ∀ x, f.Contains t x → x ∉ done) : Spares f w.forest t where
  valid        := p.valid
  ext          := p.ext
  agree        := .of_children v p.valid ht fun x hx =>
    p.children_eq (hx.has ht) (fresh x hx) fun c hc => fresh c (hx.trans (v.contains_child hc))
  parent hx    := p.parent_eq v (hx.has ht) (fresh _ hx)
  name hx hk   := p.nearestName?_eq v (fresh _ hx) hk
  doc hx       := p.constructorDoc?_eq v (hx.has ht) (fresh _ hx)
  finding hx   := p.finding_eq v (hx.has ht) (fresh _ hx)
  target hk    := ⟨p.className?_eq v hk, p.isStatic_eq v hk, p.memberName?_eq v hk⟩

namespace Spares

theorem refl (v : f.Valid) (ht : f.Has t) : Spares f f t where
  valid       := v
  ext         := .refl f
  agree       := ⟨fun _ _ => rfl, fun _ _ => .rfl, ht⟩
  parent _    := rfl
  name _ _    := rfl
  doc _       := rfl
  finding _   := fun _ _ => rfl
  target _    := ⟨rfl, rfl, rfl⟩

theorem contains (e : Spares f g t) : g.Contains t x ↔ f.Contains t x :=
  e.agree.contains e.agree.has.ne_none .refl

theorem kind? (e : Spares f g t) (hx : f.Contains t x) : g.kind? x = f.kind? x :=
  e.ext.kind? (hx.has e.agree.has)

theorem trans (e : Spares f g t) (e' : Spares g h t) : Spares f h t where
  valid            := e'.valid
  ext              := e'.ext.trans e.ext
  agree            := {
    children x hx    := (e'.agree.children x (e.contains.mpr hx)).trans (e.agree.children x hx)
    contains ha hc   := (e'.agree.contains ha (e.contains.mpr hc)).trans (e.agree.contains ha hc)
    has              := e.agree.has }
  parent hx        := (e'.parent (e.contains.mpr hx)).trans (e.parent hx)
  name hx hk       := (e'.name (e.contains.mpr hx) (e.kind? hx ▸ hk)).trans (e.name hx hk)
  doc hx           := (e'.doc (e.contains.mpr hx)).trans (e.doc hx)
  finding hx _ _   := (e'.finding (e.contains.mpr hx) ..).trans (e.finding hx ..)
  target hk        := by
    have hk' := (e.ext.kind? (has_of_kind? hk)).trans hk
    have ⟨h₁, h₂, h₃⟩ := e.target hk
    have ⟨h₁', h₂', h₃'⟩ := e'.target hk'
    exact ⟨h₁'.trans h₁, h₂'.trans h₂, h₃'.trans h₃⟩

theorem apart (e : Spares f g s) (e' : Spares f g t) (a : Apart f s t) : Apart g s t := fun x hs ht =>
  a x (e.contains.mp hs) (e'.contains.mp ht)

/- The order of the visits, and what is defined on it -/

theorem postorder_eq (e : Spares f g t) (v : f.Valid) (hx : f.Contains t x) :
    g.postorder x = f.postorder x := by
  have shallow := v.shallow (hx.ne_none e.agree.has.ne_none)
  rw [postorder, postorderWithin_congr v fun y hy => e.agree.children y (hx.trans hy)]
  exact postorderWithin_eq v (shallow.mono (Nat.succ_le_succ e.ext.size_le)) shallow

section Order

variable {order : List Ref} (e : Spares f g t) (inside : ∀ x ∈ order, f.Contains t x)
include e

theorem isDefinition_eq (hx : f.Contains t x) : g.isDefinition x = f.isDefinition x := by
  rw [isDefinition, isDefinition, isKind, isKind, isKind, isKind, e.kind? hx, e.doc hx]

include inside

theorem definitions_eq : g.definitions order = f.definitions order :=
  List.filter_congr fun x hx => e.isDefinition_eq (inside x hx)

theorem firstOf?_eq (name : String) : g.firstOf? order name = f.firstOf? order name := by
  rw [firstOf?, firstOf?, e.definitions_eq inside]
  refine List.find?_congr fun x hx => ?_
  obtain ⟨mem, definition⟩ := mem_definitions.mp hx
  have kind := isDefinition_iff.mp definition
  rw [e.name (inside x mem) (by simpa using kind.imp id And.left)]

end Order

end Spares

-- The conversion of one script spares a tree that is apart from it.
theorem spares_of_run (v : f.Valid) (ht : f.Has t) (a : Apart f s t)
    (ok : f.runScript options s = (.ok (), w)) : Spares f w.forest t := by
  obtain ⟨hs, run⟩ := run_of_ok v ok
  have has := has_of_kind? hs
  have order : f.postorder s = f.postorder s ++ [] := by simp
  exact (run.progress v has order).spares v ht fun x hx hm => a x ((v.mem_postorder has.ne_none).mp hm) hx

theorem Passes.spares (h : Passes options ss f log summary g) (ht : f.Has t)
    (apart : ∀ s ∈ ss, Apart f s t) : Spares f g t := by
  induction h
  case nil v => exact .refl v ht
  case cons s ss f g w log summary valid formed apart' run rest ih =>
    have here := spares_of_run valid ht (apart s (by simp)) run
    refine here.trans (ih (here.ext.has ht) fun s' hs' => ?_)
    have ⟨has, a⟩ := apart' s' hs'
    exact (spares_of_run valid has a run).apart here (apart s' (by simp [hs']))

/- The turn of a script -/

-- The conversion of `s` among the others: of its tree it finds what there was in `f`, and what it
-- leaves of the tree is there in the end.
structure Pass (options : Options) (f g : Forest) (log : Log) (s : Ref) (e : Forest) (w : Workspace) :
    Prop where
  valid  : e.Valid
  formed : e.Formed s
  run    : e.runScript options s = (.ok (), w)
  before : Spares f e s
  after  : Spares w.forest g s
  log    : ∃ earlier later, log = earlier ++ (e.changes options s ++ later) ∧
    ∀ c ∈ earlier ++ later, ¬f.Contains s c.site

namespace Pass

variable {e : Forest}

theorem finished (h : Pass options f g log s e w) : Finished e options s w :=
  finished_of_ok h.valid h.formed h.run

theorem mem_log (h : Pass options f g log s e w) {c : Change} (hc : c ∈ e.changes options s) :
    c ∈ log := by
  obtain ⟨earlier, later, rfl, -⟩ := h.log
  simp [hc]

theorem mem_changes (h : Pass options f g log s e w) {c : Change} (hc : c ∈ log)
    (hs : f.Contains s c.site) : c ∈ e.changes options s := by
  obtain ⟨earlier, later, rfl, out⟩ := h.log
  simp only [List.mem_append] at hc out
  rcases hc with hc | hc | hc
  · exact absurd hs (out c (.inl hc))
  · exact hc
  · exact absurd hs (out c (.inr hc))

-- In the tree of the script the changes of the others make no difference.
theorem cls?_eq (h : Pass options f g log s e w) (hx : f.Contains s x) :
    log.cls? x = (e.changes options s).cls? x := by
  obtain ⟨earlier, later, rfl, out⟩ := h.log
  have none {part : Log} (sub : part ⊆ earlier ++ later) : part.cls? x = none :=
    Log.cls?_eq_none.mpr fun ⟨cls, hm⟩ => out _ (sub hm) hx
  rw [Log.cls?_append, Log.cls?_append, none (List.subset_append_left earlier later),
    none (List.subset_append_right earlier later), Option.none_or, Option.or_none]

theorem mem_statements_iff (h : Pass options f g log s e w) (hx : f.Contains s x) :
    x ∈ log.statements ↔ x ∈ (e.changes options s).statements := by
  rw [Log.mem_statements, Log.mem_statements]
  constructor <;> rintro ⟨m, member, hm, rfl⟩
  · exact ⟨m, member, h.mem_changes hm hx, rfl⟩
  · exact ⟨m, member, h.mem_log hm, rfl⟩

theorem image_eq (h : Pass options f g log s e w) (hx : f.Contains s x) :
    log.image x = (e.changes options s).image x := by
  rw [Log.image, Log.image, h.cls?_eq hx]

end Pass

-- All changes of a script are made at its nodes.
theorem contains_site (v : f.Valid) (formed : f.Formed s) (ok : f.runScript options s = (.ok (), w))
    {c : Change} (hc : c ∈ f.changes options s) : f.Contains s c.site := by
  obtain ⟨t, ht, within⟩ := (converts_script v formed ok).within c hc
  rw [List.mem_singleton.mp ht] at within
  cases c
  case promotion => exact within
  case merge => exact within.left

theorem Passes.contains_site (h : Passes options ss f log summary g) {c : Change} (hc : c ∈ log) :
    ∃ s ∈ ss, f.Contains s c.site := by
  obtain ⟨s, hs, within⟩ := h.converts.within c hc
  refine ⟨s, hs, ?_⟩
  cases c
  case promotion => exact within
  case merge => exact within.left

-- A script that is apart from the first one has its turn after it.
theorem Pass.later {u : Workspace} {e : Forest} (p : Pass options u.forest g log t e w) (v : f.Valid)
    (formed : f.Formed s) (ok : f.runScript options s = (.ok (), u)) (ht : f.Has t) (a : Apart f s t) :
    Pass options f g (f.changes options s ++ log) t e w := by
  have spares := spares_of_run v ht a ok
  obtain ⟨earlier, later, rfl, out⟩ := p.log
  refine ⟨p.valid, p.formed, p.run, spares.trans p.before, p.after, f.changes options s ++ earlier,
    later, by simp, fun c hc => ?_⟩
  rw [List.append_assoc] at hc
  rcases List.mem_append.mp hc with hc | hc
  · exact a _ (ClassLift.contains_site v formed ok hc)
  · exact spares.contains.not.mp (out c hc)

-- The first script finds its tree as it was, and the others leave it alone.
theorem Passes.first (rest : Passes options ss w.forest log summary g) (v : f.Valid)
    (formed : f.Formed s) (apart : ∀ t ∈ ss, f.Has t ∧ Apart f s t)
    (ok : f.runScript options s = (.ok (), w)) :
    Pass options f g (f.changes options s ++ log) s f w := by
  have here := has_of_kind? (run_of_ok v ok).left
  refine ⟨v, formed, ok, .refl v here, ?after, [], log, by simp, fun c hc => ?out⟩
  case after =>
    have k := converts_script v formed ok
    exact rest.spares (k.ext.has here) fun t ht =>
      (k.apart_after v (apart t ht).left (apart t ht).right).symm
  case out =>
    obtain ⟨t, ht, hc⟩ := rest.contains_site (by simpa using hc)
    have ⟨has, a⟩ := apart t ht
    exact a.symm _ ((spares_of_run v has a ok).contains.mp hc)

theorem Passes.pass (h : Passes options ss f log summary g) (hs : s ∈ ss) :
    ∃ e w, Pass options f g log s e w ∧ w.findings ⊆ summary.findings := by
  induction h
  case nil => cases hs
  case cons s' ss f g u log summary valid formed apart run rest ih =>
    rcases List.mem_cons.mp hs with rfl | hs
    case inl => exact ⟨f, u, rest.first valid formed apart run, List.subset_append_left _ _⟩
    case inr =>
      obtain ⟨e, w, p, found⟩ := ih hs
      exact ⟨e, w, p.later valid formed run (apart s hs).left (apart s hs).right,
        fun x hx => List.mem_append_right _ (found hx)⟩

-- Every change is made in the turn of its script.
theorem Passes.pass_of_mem (h : Passes options ss f log summary g) {c : Change} (hc : c ∈ log) :
    ∃ s ∈ ss, f.Contains s c.site ∧ ∃ e w, Pass options f g log s e w ∧ c ∈ e.changes options s := by
  obtain ⟨s, hs, site⟩ := h.contains_site hc
  obtain ⟨e, w, p, -⟩ := h.pass hs
  exact ⟨s, hs, site, e, w, p, p.mem_changes hc site⟩

theorem Passes.isView (h : Passes options ss f log summary g) (hm : .merge m member ∈ log) : m.IsView f :=
  have ⟨_, _, _, view⟩ := h.converts.within _ hm
  view

end ClassLift
