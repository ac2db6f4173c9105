import ClassLift.Proofs.Convert.Reached

/-!
The statements of a script that are still to be visited. What they have below them has not been moved
out of them, and nothing has been moved into them.
-/

namespace ClassLift

open Forest

variable {f g : Forest} {script a r x y : Ref} {done rest : List Ref} {log : Log} {w w' : Workspace}
variable {m : MemberAssignment} {k : Kind} {options : Options} {change : Option Change}

theorem Progress.has_image (p : Progress f done log w) (hf : f.Has y) : w.forest.Has (log.image y) := by
  cases hc : log.cls? y
  case none =>
    rw [Log.image_of_none hc]
    exact p.ext.has hf
  case some =>
    rw [Log.image_of_some hc]
    exact has_of_kind? (p.promoted (Log.promotion_mem hc)).cls

-- The nodes that a merge is about: its statement and its function.
def Kind.isMoved : Kind → Bool
  | function | expressionStatement => true
  | _ => false

theorem Kind.not_isLeaf_of_isMoved (h : k.isMoved) : ¬k.isLeaf := by
  cases k <;> simp [isMoved, isLeaf] at h ⊢

-- Leaves are left out, since the name of a promoted function may be gone.
structure Pending (f : Forest) (script : Ref) (done : List Ref) (log : Log) (w : Workspace) : Prop where
  contains : ∀ {s a y k k'}, s ∈ f.children script → s ∉ done → f.Contains s a → log.cls? a = none →
    f.kind? a = some k → k.isMoved → f.kind? y = some k' → ¬k'.isLeaf →
    (w.forest.Contains a (log.image y) ↔ f.Contains a y)

namespace Pending

theorem start (f : Forest) (script : Ref) : Pending f script [] [] { forest := f } where
  contains _ _ _ _ _ _ _ _ := .rfl

theorem congr (h : Pending f script done log w) (e : w'.forest = w.forest) :
    Pending f script (done ++ [r]) log w' where
  contains hs hd := e ▸ h.contains hs fun hm => hd (by simp [hm])

theorem promote {q : Promoted} {doc : Nat} (h : Pending f script done log w)
    (p : Progress f done log w) (v : f.Valid) (hr : q.function ∉ done) (parts : Parts f w.forest q)
    (e : w.forest.Promotes g doc q) (hg : w'.forest = g) :
    Pending f script (done ++ [q.function]) (log ++ [.promotion q.function q.cls]) w' := by
  subst hg
  refine ⟨fun {s a y k k'} hs hd hc hu ka hm ky hl => ?_⟩
  have hF : a ≠ q.function := by
    rintro rfl
    simp [Log.cls?_concat, Change.cls?] at hu
  rw [Log.cls?_concat, Option.or_eq_none_iff] at hu
  have place := p.contains_promoted v parts e ka (Kind.not_isLeaf_of_isMoved hm) hF
    (p.has_image (has_of_kind? ky))
  have name : log.image y ≠ q.name := fun e =>
    parts.name_ne ky hl (p.eq_of_image e parts.has_name)
  rw [p.image_promoted (has_of_kind? parts.function) (p.cls?_none hr), place, h.contains hs (fun hm => hd (by simp [hm])) hc hu.left ka hm ky hl]
  simp [name]

theorem merge {r member : Ref} {className name : String} {isStatic : Bool}
    (h : Pending f script done log w) (p : Progress f done log w) (v : f.Valid)
    (hs : f.kind? script = some .script) (order : f.postorder script = done ++ m.statement :: rest)
    (onScript : m.statement ∈ f.children script) (site : f.Site w.forest m)
    (hr : f.firstOf? done className = some r)
    (hm : w.forest.kind? (w.forest.members (log.image r)) = some .classMembers)
    (out : ¬w.forest.Contains m.statement (w.forest.members (log.image r)))
    (e : w.forest.Merges g m (w.forest.members (log.image r)) member name isStatic)
    (hg : w'.forest = g) :
    Pending f script (done ++ [m.statement]) (log ++ [.merge m member]) w' := by
  subst hg
  refine ⟨fun {s a y k k'} hs' hd hc hu ka hk ky hl => ?_⟩
  rw [Log.image_merge]
  simp only [List.mem_append, List.mem_singleton, not_or] at hd
  rw [Log.cls?_concat, Change.cls?, Option.or_none] at hu
  have script_ne := (has_of_kind? hs).ne_none
  have fresh := (turn_of_postorder v (has_of_kind? hs) order).fresh
  have statement := p.kind?_eq (v.has_child onScript) site.view.statement
  -- Two statements have nothing in common.
  have other {x : Ref} (h₁ : f.Contains s x) (h₂ : f.Contains m.statement x) : False :=
    hd.right (v.child_unique hs' onScript h₁ h₂)
  have inside {y : Ref} {k : Kind} (ky : f.kind? y = some k) (hl : ¬k.isLeaf) :
      w.forest.Contains m.statement (log.image y) ↔ f.Contains m.statement y :=
    h.contains onScript fresh .refl (p.cls?_none fresh) statement rfl ky hl
  have before {y : Ref} {k : Kind} (ky : f.kind? y = some k) (hl : ¬k.isLeaf) :
      w.forest.Contains a (log.image y) ↔ f.Contains a y :=
    h.contains hs' hd.left hc hu ka hk ky hl
  have hn : ¬w.forest.Contains m.statement a := fun ha => by
    rw [← Log.image_of_none hu, inside ka (Kind.not_isLeaf_of_isMoved hk)] at ha
    exact other hc ha
  have not_below : ¬w.forest.Contains a (w.forest.members (log.image r)) := fun ha => by
    rcases ha.cases_up with e | ha
    · rw [e, p.ext.kind? (has_of_kind? ka), ka] at hm
      cases hm
      cases hk
    · rw [p.valid.parent_eq (members_mem (has_of_kind? hm).ne_none)] at ha
      obtain ⟨visited, hdef⟩ := mem_definitions.mp (mem_of_firstOf? hr).left
      obtain ⟨k, kr, hl⟩ : ∃ k, f.kind? r = some k ∧ ¬k.isLeaf := by
        rcases isDefinition_iff.mp hdef with kr | ⟨kr, -⟩ <;> exact ⟨_, kr, by simp [Kind.isLeaf]⟩
      refine v.not_contains_before script_ne order (v.contains_child hs') hd.left
        (fun h => other h .refl) visited <| hc.trans <| (before kr hl).mp ha
  rw [e.contains_iff p.valid (site.contains_value p.valid) (p.ext.has (has_of_kind? ka)) hn out
    (p.has_image (has_of_kind? ky)), before ky hl, inside ky hl]
  simp only [not_below, and_false, or_false, and_iff_left_iff_imp]
  exact fun h₁ h₂ => other (hc.trans h₁) h₂

theorem step (h : Pending f script done log w) (p : Progress f done log w) (d : Defined f done log w)
    (reached : Reached f script log w) (v : f.Valid) (s : f.Shaped script)
    (hs : f.kind? script = some .script) (order : f.postorder script = done ++ r :: rest)
    (visited : w.Visited options r change w') :
    Pending f script (done ++ [r]) (log ++ change.toList) w' := by
  have t := turn_of_postorder v (has_of_kind? hs) order
  have ⟨hc, hd⟩ := contains_of_postorder v (has_of_kind? hs) order
  rcases visited.change_cases with rfl | ⟨cls, rfl⟩ | ⟨m, member, rfl, rfl⟩
  case inl => simpa using h.congr visited.forest_eq
  case inr.inl =>
    obtain ⟨-, doc, q, rfl, rfl, kind, -, promotes⟩ := visited.of_promotion
    have parts := p.parts v (s.formed.below hc) t.fresh (p.kind?_eq t.has kind) promotes
    exact h.promote p v t.fresh parts promotes rfl
  case inr.inr =>
    obtain ⟨-, view, onScript, isMethod, cls, className, name, joins, kind, merges⟩ :=
      visited.of_merge
    have site := joins_site p v (s.formed.below hc) t.has t.fresh view isMethod joins
    obtain ⟨⟨r, hr, rfl⟩, -, out⟩ := reached.joined p d hd site joins kind
    have onScript := p.onScript_original v t.has t.fresh onScript
    have direct := s.mem_children_script v hs hc (by simp [p.kind?_eq t.has view.statement]) onScript
    exact h.merge p v hs order direct site hr kind out merges rfl

end Pending

theorem Run.pending (run : Run options f done log w) (v : f.Valid) (s : f.Shaped script)
    (hs : f.kind? script = some .script) (h : f.postorder script = done ++ rest) :
    Pending f script done log w := by
  have has := has_of_kind? hs
  refine run.invariant (motive := fun done log w => Pending f script done log w) v has h
    (.start f script) fun {done log w r rest change w'} order run h visited => ?_
  exact Pending.step h (run.progress v has order) (run.defined v has order) (run.reached v s.formed hs order) v s
    hs order visited

end ClassLift
