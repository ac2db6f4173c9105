import ClassLift.Proofs.Convert.Progress
import ClassLift.Proofs.Tree.Postorder
import Mathlib.Data.List.Find

/-!
The names and the documentation that a visit reads are those of the original tree, although visits
before it have changed the forest.
-/

namespace ClassLift

namespace Forest

variable {f g : Forest} {r c : Ref} {depth depth' i : Nat}

theorem Valid.child_has (v : f.Valid) (h : f.child r i ≠ none) : f.Has (f.child r i) :=
  v.has_child (child_mem h)

theorem Valid.first_has (v : f.Valid) (h : f.first r ≠ none) : f.Has (f.first r) :=
  v.child_has h

theorem Valid.last_has (v : f.Valid) (h : f.last r ≠ none) : f.Has (f.last r) :=
  v.has_child (last_mem h)

theorem Extends.size_le (e : g.Extends f) : f.size ≤ g.size := by
  by_contra h
  exact not_has_size g <| e.has <| has_iff.mpr ⟨g.size, by omega, rfl⟩

@[simp]
theorem pathWithin_none : f.pathWithin depth none = none := by
  cases depth <;> rfl

@[simp]
theorem prototypeWithin_none : MemberAssignment.prototypeWithin f depth none = none := by
  cases depth <;> rfl

-- Beyond the depth of the tree more depth makes no difference.
theorem pathWithin_eq (v : f.Valid) (h : f.Shallow depth r) (h' : f.Shallow depth' r) :
    f.pathWithin depth r = f.pathWithin depth' r := by
  induction depth generalizing depth' r
  case zero => exact absurd h Shallow.not_zero
  case succ depth ih =>
    cases depth'
    case zero => exact absurd h' Shallow.not_zero
    case succ depth' =>
      have same : f.pathWithin depth (f.first r) = f.pathWithin depth' (f.first r) := by
        by_cases hn : f.first r = none
        case pos => simp [hn]
        case neg => exact ih (h.child v (child_mem hn)) (h'.child v (child_mem hn))
      rw [pathWithin, pathWithin, same]

theorem path?_eq (v : f.Valid) (h : f.size < depth) : f.path? r = f.pathWithin depth r := by
  by_cases hr : r = none
  case pos => simp [path?, hr]
  case neg => exact pathWithin_eq v (v.shallow hr) ((v.shallow hr).mono h)

theorem prototypeWithin_eq (v : f.Valid) (h : f.Shallow depth r) (h' : f.Shallow depth' r) :
    MemberAssignment.prototypeWithin f depth r = MemberAssignment.prototypeWithin f depth' r := by
  induction depth generalizing depth' r
  case zero => exact absurd h Shallow.not_zero
  case succ depth ih =>
    cases depth'
    case zero => exact absurd h' Shallow.not_zero
    case succ depth' =>
      have same : MemberAssignment.prototypeWithin f depth (f.first r) =
          MemberAssignment.prototypeWithin f depth' (f.first r) := by
        by_cases hn : f.first r = none
        case pos => simp [hn]
        case neg => exact ih (h.child v (child_mem hn)) (h'.child v (child_mem hn))
      rw [MemberAssignment.prototypeWithin, MemberAssignment.prototypeWithin, same]

theorem kind?_of_prototypeWithin (h : MemberAssignment.prototypeWithin f depth r = some c) :
    f.kind? c = some .propertyAccess := by
  induction depth generalizing r
  case zero => cases h
  case succ depth ih =>
    rw [MemberAssignment.prototypeWithin] at h
    split at h
    case isFalse => cases h
    case isTrue hk =>
      split at h
      case isTrue => exact Option.some.inj h ▸ isKind_iff.mp hk
      case isFalse => exact ih h

theorem lineageWithin_congr {n : Nat} (h : ∀ x, f.Contains x r → g.parent x = f.parent x) :
    g.lineageWithin n r = f.lineageWithin n r := by
  induction n generalizing r
  case zero => simp
  case succ n ih =>
    cases r
    case none => rfl
    case some i =>
      rw [lineageWithin, lineageWithin, h _ .refl, ih fun x hx => h x hx.up]

theorem lineageWithin_of_climb {m n : Nat} (h : f.climb n r = none) (hm : n ≤ m) :
    f.lineageWithin m r = f.lineageWithin n r := by
  induction n generalizing m r
  case zero =>
    rw [climb_zero] at h
    subst h
    cases m <;> rfl
  case succ n ih =>
    obtain ⟨m, rfl⟩ := Nat.exists_eq_add_of_le' hm
    cases r
    case none => rfl
    case some i =>
      have hm : n ≤ m + n := Nat.le_add_left ..
      rw [← Nat.add_assoc, lineageWithin, lineageWithin, ih h hm]

theorem fileName?_eq_label? : f.fileName? r = (f.label? r).bind fun n =>
    if n.kind = .script then n.data.bind (f.files[·]?) else none := by
  unfold fileName? label?
  cases f.node? r <;> rfl

theorem Extends.fileName? (e : g.Extends f) (hr : f.Has r) : g.fileName? r = f.fileName? r := by
  rw [fileName?_eq_label?, fileName?_eq_label?, e.label hr, e.files]

theorem span_eq_label? : ((f.node? r).elim (0, 0) fun n => (n.pos.toNat, n.width)) =
    (f.label? r).elim (0, 0) fun n => (n.pos.toNat, n.width) := by
  unfold label?
  cases f.node? r <;> rfl

theorem Valid.has_enclosingScript (v : f.Valid) (hf : f.Has r) (h : f.enclosingScript r ≠ none) :
    f.Has (f.enclosingScript r) := by
  obtain ⟨i, hs⟩ := Option.ne_none_iff_exists'.mp h
  rw [hs]
  exact v.has_above (v.mem_lineage.mp (List.mem_of_find?_eq_some hs)) hf (by simp)

-- A finding is the same if the node is in the same script.
theorem Extends.finding_eq (e : g.Extends f) (v : f.Valid) (hf : f.Has r)
    (same : g.enclosingScript r = f.enclosingScript r) (problem : Problem) (name : String) :
    Finding.at g problem r name = Finding.at f problem r name := by
  have file : g.fileName? (f.enclosingScript r) = f.fileName? (f.enclosingScript r) := by
    by_cases hs : f.enclosingScript r = none
    case pos => rw [hs]; rfl
    case neg => exact e.fileName? (v.has_enclosingScript hf hs)
  unfold Finding.at
  simp only [same, file, span_eq_label?, e.label hf]

end Forest

open Forest

variable {f : Forest} {done : List Ref} {log : Log} {w : Workspace} {r c x : Ref} {i depth : Nat}
variable {m : MemberAssignment}

namespace Progress

-- The nodes above a node that is still to be visited are too.
theorem not_done_above (p : Progress f done log w) (v : f.Valid) (hr : r ∉ done)
    (h : f.Contains x r) (hx : x ≠ none) : x ∉ done := by
  induction h
  case refl => exact hr
  case up r h ih => exact ih fun hd => hr <| p.below hd <| v.mem_parent (h.ne_none hx)

theorem parent_not_done (p : Progress f done log w) (v : f.Valid) (hr : r ∉ done)
    (hn : f.parent r ≠ none) : f.parent r ∉ done :=
  p.not_done_above v hr (contains_parent f r) hn

theorem parent_not_merged (p : Progress f done log w) (v : f.Valid) (hr : r ∉ done) :
    f.parent r ∉ log.statements := by
  by_cases hn : f.parent r = none
  case neg => exact p.not_merged (p.parent_not_done v hr hn)
  case pos =>
    intro h
    obtain ⟨m, member, hm, e⟩ := Log.mem_statements.mp h
    exact (has_of_kind? (p.merged hm).view.statement).ne_none (e.trans hn)

theorem last_image (p : Progress f done log w)
    (h : w.forest.children r = (f.children r).map log.image) :
    w.forest.last r = log.image (f.last r) := by
  rw [last, last, h, List.getLast?_map]
  cases (f.children r).getLast?
  case none => exact p.image_none.symm
  case some => rfl

/- Names -/

theorem identifierText?_image (p : Progress f done log w) (v : f.Valid) (hx : x ≠ none → f.Has x) :
    w.forest.identifierText? (log.image x) = f.identifierText? x := by
  cases hc : log.cls? x
  case none =>
    rw [Log.image_of_none hc]
    by_cases hn : x = none
    case pos => simp [hn, identifierText?, isKind, kind?]
    case neg => exact p.ext.identifierText? v (hx hn)
  case some =>
    have q := p.promoted (Log.promotion_mem hc)
    rw [Log.image_of_some hc]
    simp [identifierText?, isKind, q.kind, q.cls]

theorem pathWithin_image (p : Progress f done log w) (v : f.Valid) (hx : x ≠ none → f.Has x) :
    w.forest.pathWithin depth (log.image x) = f.pathWithin depth x := by
  induction depth generalizing x
  case zero => rfl
  case succ depth ih =>
    cases hc : log.cls? x
    case some =>
      have q := p.promoted (Log.promotion_mem hc)
      rw [Log.image_of_some hc]
      simp [pathWithin, q.kind, q.cls]
    case none =>
      rw [Log.image_of_none hc]
      by_cases hn : x = none
      case pos => simp [hn]
      case neg =>
        have hf := hx hn
        rw [pathWithin, pathWithin, p.ext.kind? hf, p.ext.text? v hf]
        by_cases hk : f.kind? x = some .propertyAccess
        case neg => split <;> simp_all
        case pos =>
          have cs := p.children_of_kind v hk (by simp)
          simp only [hk]
          rw [p.last_image cs, p.identifierText?_image v v.last_has, first, p.child_image cs,
            ih v.child_has]
          rfl

theorem qualifiedName?_image (p : Progress f done log w) (v : f.Valid) (hx : x ≠ none → f.Has x) :
    w.forest.qualifiedName? (log.image x) = f.qualifiedName? x := by
  have hs := Nat.lt_succ_of_le p.ext.size_le
  rw [qualifiedName?, qualifiedName?, path?, p.pathWithin_image v hx, path?_eq v hs]

-- Below a node that is still to be visited there are the original children or their classes, if it
-- is none of the lists that a merge changes.
theorem children_pending (p : Progress f done log w) (v : f.Valid) (hf : f.Has r) (hr : r ∉ done)
    (hk : f.kind? r ∉ [some Kind.classMembers, some Kind.script]) :
    w.forest.children r = (f.children r).map log.image := by
  simp only [List.mem_cons, List.not_mem_nil, or_false, not_or] at hk
  exact p.children_image v hf (p.cls?_none hr) hk.left hk.right fun _ => p.parent_not_merged v hr

end Progress

-- A node, or the class that it has become, still stands where the node stood, and what binds it there
-- has not been taken apart.
structure Placed (f : Forest) (log : Log) (g : Forest) (r : Ref) : Prop where
  has    : f.Has r
  parent : g.parent (log.image r) = f.parent r
  above  : f.kind? (f.parent r) ∈ [some Kind.variableDeclaration, some .assignment] →
    g.parent (f.parent r) = f.parent (f.parent r)
  whole  : f.kind? (f.parent r) = some .assignment → f.parent (f.parent r) ∉ log.statements
  only   : ∀ {x}, f.Has x → log.image x = log.image r → x = r

theorem Progress.placed (p : Progress f done log w) (v : f.Valid) (hf : f.Has r) (hr : r ∉ done) :
    Placed f log w.forest r := by
  have image := Log.image_of_none (p.cls?_none hr)
  have above : w.forest.parent (f.parent r) = f.parent (f.parent r) ∧
      f.parent (f.parent r) ∉ log.statements := by
    by_cases hn : f.parent r = none
    case pos => exact ⟨by simp [hn], by simpa [hn] using p.parent_not_merged v hr⟩
    case neg =>
      have hd := p.parent_not_done v hr hn
      exact ⟨p.parent_eq v (v.has_parent hn) hd, p.parent_not_merged v hd⟩
  refine ⟨hf, image.symm ▸ p.parent_eq v hf hr, fun _ => above.left, fun _ => above.right, fun {x} hx e => ?_⟩
  exact p.eq_of_image (e.trans image) hf

namespace Placed

variable (h : Placed f log w.forest r) (p : Progress f done log w) (v : f.Valid)
include h p v

theorem isValueOf_eq (hc : w.forest.children c = (f.children c).map log.image) :
    w.forest.isValueOf (log.image r) c = f.isValueOf r c := by
  have hr := h.has.ne_none
  unfold isValueOf second
  rw [p.child_image hc, Bool.eq_iff_iff, beq_iff_eq, beq_iff_eq]
  refine ⟨fun e => ?_, congrArg log.image⟩
  by_cases hn : f.child c 1 = none
  case neg => exact h.only (v.child_has hn) e
  case pos =>
    rw [hn, p.image_none] at e
    exact absurd (p.eq_of_image_none e.symm) hr

theorem children_binding {k : Kind} (hk : f.kind? (f.parent r) = some k)
    (hn : k ∉ [.function, .classMembers, .script]) :
    w.forest.children (f.parent r) = (f.children (f.parent r)).map log.image := by
  simp only [List.mem_cons, List.not_mem_nil, or_false, not_or] at hn
  have ⟨function, members, script⟩ := hn
  exact p.children_image v (has_of_kind? hk) (p.cls?_none_of_kind hk function) (by simp [hk, members])
    (by simp [hk, script]) h.whole

theorem boundName?_eq : w.forest.boundName? (log.image r) = f.boundName? r := by
  unfold boundName?
  rw [h.parent]
  by_cases hn : f.parent r = none
  case pos => simp [hn, kind?]
  case neg =>
    have hp := v.has_parent hn
    simp only [p.ext.kind? hp]
    split
    case h_1 hk =>
      have cs := h.children_binding p v hk (by simp)
      rw [h.isValueOf_eq p v cs, first, p.child_image cs, p.identifierText?_image v v.child_has]
      rfl
    case h_2 hk =>
      have cs := h.children_binding p v hk (by simp)
      rw [h.isValueOf_eq p v cs, first, p.child_image cs, p.qualifiedName?_image v v.child_has]
      rfl
    case h_3 => exact p.ext.text? v hp
    case h_4 => rfl

theorem nearestName?_eq
    (own : (w.forest.ownName? (log.image r)).filter (· ≠ "") = (f.ownName? r).filter (· ≠ "")) :
    w.forest.nearestName? (log.image r) = f.nearestName? r := by
  rw [nearestName?, nearestName?, h.boundName?_eq p v, own]

theorem statementDoc?_eq {k : Kind}
    (hk : f.kind? (f.parent r) ∈ [some Kind.variableDeclaration, some .assignment]) :
    w.forest.statementDoc? (f.parent r) k = f.statementDoc? (f.parent r) k := by
  unfold statementDoc?
  rw [h.above hk]
  by_cases hn : f.parent (f.parent r) = none
  case pos => simp [hn, isKind, kind?]
  case neg =>
    have hp := v.has_parent hn
    simp only [p.ext.isKind hp, p.ext.docIndex? hp]

theorem boundDoc?_eq : w.forest.boundDoc? (log.image r) = f.boundDoc? r := by
  unfold boundDoc?
  rw [h.parent]
  by_cases hn : f.parent r = none
  case pos => simp [hn, kind?]
  case neg =>
    have hp := v.has_parent hn
    simp only [p.ext.kind? hp, p.ext.docIndex? hp]
    split
    case h_1 hk =>
      have binding : f.kind? (f.parent r) ∈ [some Kind.variableDeclaration, some .assignment] := by
        simp [hk]
      rw [h.isValueOf_eq p v (h.children_binding p v hk (by simp)), h.statementDoc?_eq p v binding,
        h.above binding]
      -- The number of declarations only matters below a statement that declares variables.
      by_cases hs : f.kind? (f.parent (f.parent r)) = some .variableStatement
      case pos => rw [p.children_of_kind v hs (by simp), List.length_map]
      case neg => simp [statementDoc?, isKind, hs]
    case h_2 hk =>
      rw [h.isValueOf_eq p v (h.children_binding p v hk (by simp)), h.statementDoc?_eq p v (by simp [hk])]
    case h_3 => rfl
    case h_4 => rfl

theorem constructorDoc?_eq (hu : log.cls? r = none) :
    w.forest.constructorDoc? r = f.constructorDoc? r := by
  have bound := h.boundDoc?_eq p v
  rw [Log.image_of_none hu] at bound
  rw [constructorDoc?, constructorDoc?, bestDoc?, bestDoc?, bound, p.ext.docIndex? h.has, p.ext.docs]

end Placed

namespace Progress

-- The own name of a class or a function that is what it was.
theorem ownName?_eq (p : Progress f done log w) (v : f.Valid) (hu : log.cls? r = none)
    (hk : f.kind? r ∈ [some Kind.classDefinition, some Kind.function]) :
    w.forest.ownName? r = f.ownName? r := by
  have hf : f.Has r := by
    cases h : f.kind? r
    case none => simp [h] at hk
    case some => exact has_of_kind? h
  have other {k : Kind} (h : k ∉ [.classDefinition, .function]) : f.kind? r ≠ some k := fun e => by
    simp_all
  have cs := p.children_image v hf hu (other (by simp)) (other (by simp)) fun e =>
    absurd e (other (by simp))
  rw [ownName?, ownName?, first, p.child_image cs, p.identifierText?_image v v.child_has]
  rfl

theorem nearestName?_eq (p : Progress f done log w) (v : f.Valid) (hr : r ∉ done)
    (hk : f.kind? r ∈ [some Kind.classDefinition, some Kind.function]) :
    w.forest.nearestName? r = f.nearestName? r := by
  have hf : f.Has r := by
    cases h : f.kind? r
    case none => simp [h] at hk
    case some => exact has_of_kind? h
  have image := Log.image_of_none (p.cls?_none hr)
  have name := (p.placed v hf hr).nearestName?_eq p v (by rw [image, p.ownName?_eq v (p.cls?_none hr) hk])
  rwa [image] at name

/- Documentation -/

theorem constructorDoc?_eq (p : Progress f done log w) (v : f.Valid) (hf : f.Has r)
    (hr : r ∉ done) : w.forest.constructorDoc? r = f.constructorDoc? r :=
  (p.placed v hf hr).constructorDoc?_eq p v (p.cls?_none hr)

/- Findings -/

theorem lineage_eq (p : Progress f done log w) (v : f.Valid) (hf : f.Has r) (hr : r ∉ done) :
    w.forest.lineage r = f.lineage r := by
  have up (x : Ref) (hx : f.Contains x r) : w.forest.parent x = f.parent x := by
    by_cases hn : x = none
    case pos => simp [hn]
    case neg => exact p.parent_eq v (v.has_above hx hf hn) (p.not_done_above v hr hx hn)
  have hs := Nat.succ_le_succ p.ext.size_le
  rw [lineage, lineage, lineageWithin_congr up, lineageWithin_of_climb (v.climb_succ_size r) hs]

-- A finding about a node that is still to be visited says what it would have said at the start.
theorem finding_eq (p : Progress f done log w) (v : f.Valid) (hf : f.Has r) (hr : r ∉ done)
    (problem : Problem) (name : String) :
    Finding.at w.forest problem r name = Finding.at f problem r name := by
  have script : w.forest.enclosingScript r = f.enclosingScript r := by
    unfold enclosingScript
    rw [p.lineage_eq v hf hr]
    refine List.find?_congr fun i hi => p.ext.isKind ?_ _
    exact v.has_above (v.mem_lineage.mp hi) hf (by simp)
  exact p.ext.finding_eq v hf script problem name

/- Members -/

theorem kind?_image_iff {k : Kind} (p : Progress f done log w) (hx : x ≠ none → f.Has x)
    (hc : k ≠ .classDefinition) (hn : k ≠ .function) :
    w.forest.kind? (log.image x) = some k ↔ f.kind? x = some k := by
  constructor <;> intro h
  case mp =>
    rw [p.image_of_kind h hc] at h
    exact p.kind?_eq (hx (has_of_kind? h).ne_none) h
  case mpr =>
    rw [p.image_eq_self h hn, p.ext.kind? (has_of_kind? h), h]

theorem propertyName?_image (p : Progress f done log w) (v : f.Valid) (hx : x ≠ none → f.Has x) :
    w.forest.propertyName? (log.image x) = f.propertyName? x := by
  unfold propertyName?
  by_cases hk : f.kind? x = some .propertyAccess
  case pos =>
    have cs := p.children_of_kind v hk (by simp)
    rw [p.image_eq_self hk (by simp), p.ext.isKind (has_of_kind? hk), p.last_image cs,
      p.identifierText?_image v v.last_has]
  case neg =>
    have hk' := (p.kind?_image_iff hx (by simp) (by simp)).not.mpr hk
    simp [isKind, hk, hk']

theorem isPrototype_image (p : Progress f done log w) (v : f.Valid) (hx : x ≠ none → f.Has x) :
    MemberAssignment.isPrototype w.forest (log.image x) = MemberAssignment.isPrototype f x := by
  rw [MemberAssignment.isPrototype, p.propertyName?_image v hx, MemberAssignment.isPrototype]

theorem first_propertyAccess (p : Progress f done log w) (v : f.Valid)
    (hk : f.kind? r = some .propertyAccess) : w.forest.first r = log.image (f.first r) :=
  p.child_image <| p.children_of_kind v hk (by simp)

theorem isStatic_eq (p : Progress f done log w) (v : f.Valid)
    (ht : f.kind? m.target = some .propertyAccess) : m.isStatic w.forest = m.isStatic f := by
  rw [MemberAssignment.isStatic, p.first_propertyAccess v ht, p.isPrototype_image v v.first_has,
    MemberAssignment.isStatic]

theorem prototypeWithin_image (p : Progress f done log w) (v : f.Valid) (hx : x ≠ none → f.Has x) :
    MemberAssignment.prototypeWithin w.forest depth (log.image x) =
      MemberAssignment.prototypeWithin f depth x := by
  induction depth generalizing x
  case zero => rfl
  case succ depth ih =>
    rw [MemberAssignment.prototypeWithin, MemberAssignment.prototypeWithin, p.isPrototype_image v hx]
    by_cases hk : f.kind? x = some .propertyAccess
    case pos =>
      rw [p.image_eq_self hk (by simp), p.ext.isKind (has_of_kind? hk),
        p.first_propertyAccess v hk, ih v.first_has]
    case neg =>
      have hk' := (p.kind?_image_iff hx (by simp) (by simp)).not.mpr hk
      simp [isKind, hk, hk']

theorem className?_eq (p : Progress f done log w) (v : f.Valid)
    (ht : f.kind? m.target = some .propertyAccess) :
    m.className? w.forest = m.className? f := by
  have target : log.image m.target = m.target :=
    p.image_eq_self ht (by simp)
  have within : MemberAssignment.prototypeWithin w.forest (w.forest.size + 1) m.target =
      MemberAssignment.prototypeWithin f (f.size + 1) m.target := by
    have shallow := v.shallow (has_of_kind? ht).ne_none
    have h : MemberAssignment.prototypeWithin w.forest (w.forest.size + 1) (log.image m.target) = _ :=
      p.prototypeWithin_image v fun _ => has_of_kind? ht
    rw [target] at h
    rw [h, prototypeWithin_eq v (shallow.mono (Nat.succ_le_succ p.ext.size_le)) shallow]
  unfold MemberAssignment.className?
  rw [p.isStatic_eq v ht, within, p.first_propertyAccess v ht, p.qualifiedName?_image v v.first_has]
  split
  case isTrue => rfl
  case isFalse =>
    split
    case h_1 access h =>
      have hk := kind?_of_prototypeWithin h
      rw [p.first_propertyAccess v hk, p.qualifiedName?_image v v.first_has]
    case h_2 => rfl

theorem memberName?_eq (p : Progress f done log w) (v : f.Valid)
    (ht : f.kind? m.target = some .propertyAccess) : m.memberName? w.forest = m.memberName? f := by
  have h := p.propertyName?_image v fun _ => has_of_kind? ht
  rwa [p.image_eq_self ht (by simp)] at h

-- The method that a statement has been from the start is still seen as long as it is not merged, if
-- its function has not become a class.
theorem isView_kept (p : Progress f done log w) (v : f.Valid) (i : m.IsView f)
    (hr : m.statement ∉ log.statements) (hk : f.kind? m.value = some .function)
    (hu : log.cls? m.value = none) : m.IsView w.forest := by
  have hf := has_of_kind? i.statement
  have ha := has_of_kind? i.assignment.right
  have hp : f.parent m.assignment = m.statement := v.parent_eq i.assignment_mem
  have cs := p.children_of_kind v i.statement (by simp)
  have as := p.children_image v ha (p.cls?_none_of_kind i.assignment.right (by simp))
    (by simp [i.assignment.right]) (by simp [i.assignment.right]) fun _ => hp ▸ hr
  refine ⟨(p.ext.kind? hf).trans i.statement, ⟨?_, (p.ext.kind? ha).trans i.assignment.right⟩,
    ⟨?_, (p.ext.kind? (has_of_kind? i.target.right)).trans i.target.right⟩, ?_, ?_⟩
  · rw [first, p.child_image cs]
    exact (p.image_eq_self i.assignment.right (by simp)).symm.trans (congrArg log.image i.assignment.left)
  · rw [first, p.child_image as]
    exact (p.image_eq_self i.target.right (by simp)).symm.trans (congrArg log.image i.target.left)
  · rw [second, p.child_image as]
    exact (Log.image_of_none hu).symm.trans (congrArg log.image i.value)
  · rw [i.doc, p.ext.docIndex? hf, p.ext.docIndex? ha, p.ext.docIndex? (has_of_kind? hk)]

end Progress

end ClassLift
