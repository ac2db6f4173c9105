import ClassLift.Proofs.Convert.Failure
import ClassLift.Proofs.Convert.Findings
import ClassLift.Proofs.Tree.Mirror

/-!
A script that is converted in two forests. What is read is the same in both, so every visit does the
same in both, only that the nodes it adds do not have the same numbers.
-/

namespace ClassLift

open Forest

variable {f g h e : Forest} {s x y c p : Ref} {k doc : Nat} {cs : List Ref} {pr qr : Forest × Ref}

/- Names -/

namespace Mirror

section Names

variable (m : Mirror f s k g h) (hx : f.Sees s x)
include m hx

theorem pathWithin_eq (depth : Nat) : h.pathWithin depth (f.shift k x) = g.pathWithin depth x := by
  induction depth generalizing x
  case zero => rfl
  case succ depth ih =>
    have object := ih (m.sees_first hx)
    rw [pathWithin, pathWithin, m.kind?_eq hx, m.text?_eq hx, m.last_eq hx,
      m.identifierText?_eq (m.sees_last hx), m.first_eq hx, object]

theorem qualifiedName?_eq (v : g.Valid) : h.qualifiedName? (f.shift k x) = g.qualifiedName? x := by
  have within : h.path? (f.shift k x) = g.pathWithin (h.size + 1) x := m.pathWithin_eq hx _
  rw [qualifiedName?, qualifiedName?, within, ← path?_eq v (by rw [m.size]; omega)]

theorem propertyName?_eq : h.propertyName? (f.shift k x) = g.propertyName? x := by
  rw [propertyName?, propertyName?, m.isKind_eq hx, m.last_eq hx, m.identifierText?_eq (m.sees_last hx)]

theorem ownName?_eq : h.ownName? (f.shift k x) = g.ownName? x := by
  rw [ownName?, ownName?, m.first_eq hx, m.identifierText?_eq (m.sees_first hx)]

theorem isValueOf_eq : h.isValueOf (f.shift k y) (f.shift k x) = g.isValueOf y x := by
  rw [isValueOf, isValueOf, m.second_eq hx, Bool.eq_iff_iff, beq_iff_eq, beq_iff_eq,
    shift_injective.eq_iff]

end Names

/- Bindings -/

section Bindings

variable (m : Mirror f s k g h) (root : g.kind? s = some .script)
include root

-- What is of another kind is not the script.
theorem ne_root {kind : Kind} (hk : g.kind? x = some kind) (hn : kind ≠ .script) : x ≠ s := by
  rintro rfl
  exact hn (Option.some.inj (hk.symm.trans root))

include m

theorem sees_above {kind : Kind} (hx : f.Sees s x) (hk : g.kind? x = some kind) (hn : kind ≠ .script) :
    f.Sees s (g.parent x) :=
  m.parent hx (ne_root root hk hn)

theorem kind?_parent_eq {kind : Kind} (hx : f.Sees s x) (hk : g.kind? x = some kind)
    (hn : kind ≠ .script) : h.kind? (h.parent (f.shift k x)) = g.kind? (g.parent x) := by
  rw [m.parent_eq hx, m.kind?_eq (m.sees_above root hx hk hn)]

variable (v : g.Valid) (hx : f.Sees s x) (hs : x ≠ s)
include hx

theorem statementDoc?_eq {kind kind' : Kind} (hk : g.kind? x = some kind) (hn : kind ≠ .script) :
    h.statementDoc? (f.shift k x) kind' = g.statementDoc? x kind' := by
  have above := m.sees_above root hx hk hn
  rw [statementDoc?, statementDoc?, m.parent_eq hx, m.isKind_eq above, m.docIndex?_eq above]

include hs

theorem boundDoc?_eq : h.boundDoc? (f.shift k x) = g.boundDoc? x := by
  have hp := m.parent hx hs
  rw [boundDoc?, boundDoc?, m.parent_eq hx, m.kind?_eq hp, m.isValueOf_eq hp, m.docIndex?_eq hp]
  split
  case h_1 hk =>
    have above := m.sees_above root hp hk (by simp)
    rw [m.parent_eq hp, m.children_eq above, List.length_map, m.statementDoc?_eq root hp hk (by simp)]
  case h_2 hk => rw [m.statementDoc?_eq root hp hk (by simp)]
  case h_3 => rfl
  case h_4 => rfl

theorem constructorDoc?_eq : h.constructorDoc? (f.shift k x) = g.constructorDoc? x := by
  rw [constructorDoc?, constructorDoc?, bestDoc?, bestDoc?, m.docIndex?_eq hx, m.boundDoc?_eq root hx hs,
    m.docs]

omit root
include v

theorem boundName?_eq : h.boundName? (f.shift k x) = g.boundName? x := by
  have hp := m.parent hx hs
  rw [boundName?, boundName?, m.parent_eq hx, m.kind?_eq hp, m.isValueOf_eq hp, m.first_eq hp,
    m.identifierText?_eq (m.sees_first hp), m.qualifiedName?_eq (m.sees_first hp) v, m.text?_eq hp]

theorem nearestName?_eq : h.nearestName? (f.shift k x) = g.nearestName? x := by
  rw [nearestName?, nearestName?, m.boundName?_eq v hx hs, m.ownName?_eq hx]

end Bindings

/- Classes -/

section Classes

variable (m : Mirror f s k g h) (hx : f.Sees s x)
include m hx

theorem members_eq : h.members (f.shift k x) = f.shift k (g.members x) := by
  rw [members, members, m.isKind_eq hx, m.last_eq hx]
  split <;> rfl

theorem sees_members : f.Sees s (g.members x) := by
  rw [members]
  split
  case isTrue => exact m.sees_last hx
  case isFalse => exact sees_none

end Classes

end Mirror

/- Assignments of members -/

namespace MemberAssignment

variable {m : MemberAssignment} {className : String}

-- The same assignment where its parts have other numbers.
def renumber (m : MemberAssignment) (ρ : Ref → Ref) : MemberAssignment where
  statement := ρ m.statement
  assignment := ρ m.assignment
  target := ρ m.target
  value := ρ m.value
  doc := m.doc

theorem ofStatement?_mirror (o : Mirror f s k g h) (hx : f.Sees s x) :
    ofStatement? h (f.shift k x) = (ofStatement? g x).map (·.renumber (f.shift k)) := by
  have ha := o.sees_first hx
  unfold ofStatement?
  simp only [o.first_eq hx, o.first_eq ha, o.second_eq ha, o.isKind_eq hx, o.isKind_eq ha,
    o.isKind_eq (o.sees_first ha), o.docIndex?_eq hx, o.docIndex?_eq ha, o.docIndex?_eq (o.sees_second ha)]
  split <;> rfl

-- The parts of an assignment are below its statement.
theorem IsView.sees (i : m.IsView g) (o : Mirror f s k g h) (hs : f.Sees s m.statement) :
    f.Sees s m.assignment ∧ f.Sees s m.target ∧ f.Sees s m.value := by
  have ha : f.Sees s m.assignment := i.assignment.left ▸ o.sees_first hs
  exact ⟨ha, i.target.left ▸ o.sees_first ha, i.value ▸ o.sees_second ha⟩

theorem IsView.renumber (i : m.IsView g) (o : Mirror f s k g h) (hs : f.Sees s m.statement) :
    (m.renumber (f.shift k)).IsView h := by
  have of := congrArg (Option.map (·.renumber (f.shift k))) (ofStatement?_eq_some.mpr ⟨rfl, i⟩)
  exact (ofStatement?_eq_some.mp ((ofStatement?_mirror o hs).trans of)).right

theorem isPrototype_mirror (o : Mirror f s k g h) (hx : f.Sees s x) :
    isPrototype h (f.shift k x) = isPrototype g x := by
  rw [isPrototype, isPrototype, o.propertyName?_eq hx]

theorem prototypeWithin_mirror (o : Mirror f s k g h) (hx : f.Sees s x) (depth : Nat) :
    prototypeWithin h depth (f.shift k x) = (prototypeWithin g depth x).map (f.shift k) ∧
      ∀ y, prototypeWithin g depth x = some y → f.Sees s y := by
  induction depth generalizing x
  case zero => exact ⟨rfl, nofun⟩
  case succ depth ih =>
    obtain ⟨same, sees⟩ := ih (o.sees_first hx)
    rw [prototypeWithin, prototypeWithin, o.isKind_eq hx, isPrototype_mirror o hx, o.first_eq hx]
    split
    case isFalse => exact ⟨rfl, by simp⟩
    case isTrue =>
      split
      case isFalse => exact ⟨same, sees⟩
      case isTrue => exact ⟨rfl, fun y e => Option.some.inj e ▸ hx⟩

section Target

variable (o : Mirror f s k g h) (ht : f.Sees s m.target)
include o ht

theorem isStatic_mirror : (m.renumber (f.shift k)).isStatic h = m.isStatic g := by
  rw [isStatic, isStatic, renumber, o.first_eq ht, isPrototype_mirror o (o.sees_first ht)]

theorem memberName?_mirror : (m.renumber (f.shift k)).memberName? h = m.memberName? g :=
  o.propertyName?_eq ht

theorem className?_mirror (v : g.Valid) {name : Option String} (ok : m.className? g = .ok name) :
    (m.renumber (f.shift k)).className? h = .ok name := by
  unfold className? at ok ⊢
  rw [isStatic_mirror o ht]
  split at ok
  case isTrue hs =>
    rw [if_pos hs, renumber, o.first_eq ht, o.qualifiedName?_eq (o.sees_first ht) v, ok]
  case isFalse hs =>
    have depth : prototypeWithin g (h.size + 1) m.target = prototypeWithin g (g.size + 1) m.target := by
      by_cases hn : m.target = none
      case pos => rw [hn, prototypeWithin_none, prototypeWithin_none]
      case neg =>
        have shallow := v.shallow hn
        exact prototypeWithin_eq v (shallow.mono (by rw [o.size]; omega)) shallow
    obtain ⟨same, sees⟩ := prototypeWithin_mirror o ht (h.size + 1)
    rw [depth] at same sees
    rw [if_neg hs, renumber, same]
    cases ha : prototypeWithin g (g.size + 1) m.target
    case none => simp [ha] at ok
    case some access =>
      rw [ha] at ok
      have hy := sees access ha
      simp only [Option.map_some, o.first_eq hy, o.qualifiedName?_eq (o.sees_first hy) v]
      exact ok

end Target

end MemberAssignment

/- New nodes -/

namespace Mirror

variable (m : Mirror f s k g h)
include m

theorem addEmpty : MirrorAt f s k (g.add .empty []) (h.add .empty []) :=
  m.add (by decide) rfl nofun

theorem addIdentifier (text : String) : MirrorAt f s k (g.addIdentifier text) (h.addIdentifier text) :=
  m.addText (by simp) text nofun

theorem addNameUnlessGiven (hx : f.Sees s x) :
    MirrorAt f s k (g.addNameUnlessGiven x) (h.addNameUnlessGiven (f.shift k x)) := by
  rw [Forest.addNameUnlessGiven, Forest.addNameUnlessGiven, m.identifierText?_eq hx]
  split
  case h_2 => exact m.addEmpty
  case h_1 =>
    split
    case isTrue => exact m.addEmpty
    case isFalse => exact ⟨m, rfl, hx⟩

end Mirror

namespace MirrorAt

variable (a : MirrorAt f s k pr qr)
include a

theorem addPropertyAccess (name : String) :
    MirrorAt f s k (pr.1.addPropertyAccess pr.2 name) (qr.1.addPropertyAccess qr.2 name) := by
  have identifier := a.forest.addIdentifier name
  refine identifier.forest.add (by decide) ?_ (by simpa using ⟨a.sees, identifier.sees⟩)
  show [qr.2, (qr.1.addIdentifier name).2] = [f.shift k pr.2, f.shift k (pr.1.addIdentifier name).2]
  rw [a.ref, identifier.ref]

theorem addPropertyAccesses (names : List String) :
    let add := fun (q : Forest × Ref) name => q.1.addPropertyAccess q.2 name
    MirrorAt f s k (names.foldl add pr) (names.foldl add qr) := by
  induction names generalizing pr qr
  case nil => exact a
  case cons name names ih => exact ih (a.addPropertyAccess name)

theorem addFunction (hx : f.Sees s x) (hy : f.Sees s y) :
    MirrorAt f s k (pr.1.addFunction pr.2 x y) (qr.1.addFunction qr.2 (f.shift k x) (f.shift k y)) :=
  a.forest.add (by decide) (by simp [a.ref]) (by simpa using ⟨a.sees, hx, hy⟩)

theorem addMembers :
    MirrorAt f s k (pr.1.add .classMembers [pr.2]) (qr.1.add .classMembers [qr.2]) :=
  a.forest.add (by decide) (by simp [a.ref]) (by simpa using a.sees)

theorem addMember (name : String) (isStatic : Bool) :
    MirrorAt f s k (pr.1.addMember name isStatic pr.2) (qr.1.addMember name isStatic qr.2) :=
  a.ref ▸ a.forest.addMember name isStatic a.sees

theorem copySpan (hx : f.Sees s x) :
    MirrorAt f s k (pr.1.copySpan x pr.2, pr.2) (qr.1.copySpan (f.shift k x) qr.2, qr.2) :=
  ⟨a.ref ▸ a.forest.copySpan a.sees hx, a.ref, a.sees⟩

theorem markPromoted (hx : f.Sees s x) :
    MirrorAt f s k (pr.1.markPromoted x pr.2, pr.2) (qr.1.markPromoted (f.shift k x) qr.2, qr.2) :=
  have span := a.copySpan hx
  ⟨a.ref ▸ span.forest.addFlags a.sees .synthesized, a.ref, a.sees⟩

theorem setDoc (doc : Option Nat) :
    MirrorAt f s k (pr.1.setDoc pr.2 doc, pr.2) (qr.1.setDoc qr.2 doc, qr.2) :=
  ⟨a.ref ▸ a.forest.setDoc a.sees doc, a.ref, a.sees⟩

theorem appendChild (hp : f.Sees s p) (hg : pr.1.appendChild p pr.2 = .ok g)
    (hh : qr.1.appendChild (f.shift k p) qr.2 = .ok h) : Mirror f s k g h :=
  a.forest.appendChild hp a.sees hg (a.ref ▸ hh)

theorem replaceWith (hx : f.Sees s x) (hs : x ≠ s) (hg : pr.1.replaceWith x pr.2 = .ok g)
    (hh : qr.1.replaceWith (f.shift k x) qr.2 = .ok h) : Mirror f s k g h :=
  a.forest.replaceWith hx hs a.sees hg (a.ref ▸ hh)

end MirrorAt

namespace Mirror

theorem addSuperclass (m : Mirror f s k g h) (doc : Nat) :
    MirrorAt f s k (g.addSuperclass doc) (h.addSuperclass doc) := by
  have base : h.baseName? doc = g.baseName? doc := by rw [baseName?, baseName?, m.docs]
  have empty := m.addEmpty
  unfold Forest.addSuperclass
  rw [base]
  cases g.baseName? doc
  case none => exact empty
  case some name =>
    simp only [Option.map_some, buildPath]
    cases Path.ofText? name
    case none => exact empty
    case some segments =>
      cases segments
      case nil => exact empty
      case cons head rest => exact (m.addIdentifier head).addPropertyAccesses rest

theorem addClass {name superclass members name' superclass' members' : Ref} (m : Mirror f s k g h)
    (names : f.Sees s name ∧ name' = f.shift k name)
    (superclasses : f.Sees s superclass ∧ superclass' = f.shift k superclass)
    (lists : f.Sees s members ∧ members' = f.shift k members) :
    MirrorAt f s k (g.addClass name superclass members) (h.addClass name' superclass' members') :=
  m.add (by decide) (by simp [names.right, superclasses.right, lists.right])
    (by simpa using ⟨names.left, superclasses.left, lists.left⟩)

theorem addPromoted {name parameters body : Ref} (m : Mirror f s k g h) (hx : f.Sees s x)
    (hn : f.Sees s name) (hp : f.Sees s parameters) (hb : f.Sees s body) (doc : Nat) :
    MirrorAt f s k (g.addPromoted x name parameters body doc)
      (h.addPromoted (f.shift k x) (f.shift k name) (f.shift k parameters) (f.shift k body) doc) := by
  have names := m.addNameUnlessGiven hn
  have superclasses := names.forest.addSuperclass doc
  have moved := (superclasses.forest.addEmpty.addFunction hp hb).copySpan hx
  have constructor := (moved.addMember "constructor" false).markPromoted hx |>.setDoc (some doc)
  have lists := constructor.addMembers
  have cls := lists.forest.addClass ⟨names.sees, names.ref⟩ ⟨superclasses.sees, superclasses.ref⟩
    ⟨lists.sees, lists.ref⟩
  exact cls.markPromoted hx

end Mirror

/- Workspaces -/

-- Two conversions of the tree that have come equally far. Their findings are not compared.
structure Alike (f : Forest) (s : Ref) (k : Nat) (w u : Workspace) : Prop where
  forest   : Mirror f s k w.forest u.forest
  stats    : u.stats = w.stats
  registry : u.registry.entries = w.registry.entries.map fun e => (e.1, f.shift k e.2)
  seen     : ∀ {e}, e ∈ w.registry.entries → f.Sees s e.2

open Workspace

namespace Alike

variable {options : Options} {w u w' u' : Workspace} {cls cls' : Ref} {name className : String}
variable {m : MemberAssignment}

section Registries

variable (a : Alike f s k w u)
include a

theorem lookup?_eq (name : String) :
    u.registry.lookup? name = (w.registry.lookup? name).map (f.shift k) := by
  rw [Registry.lookup?, Registry.lookup?, a.registry, List.find?_map, Option.map_map, Option.map_map]
  rfl

theorem contains_eq (name : String) : u.registry.contains name = w.registry.contains name := by
  rw [Registry.contains, Registry.contains, a.lookup?_eq, Option.isSome_map]

theorem sees_lookup (hl : w.registry.lookup? name = some cls) : f.Sees s cls :=
  a.seen (Registry.mem_of_lookup? hl)

theorem note_left (finding : Finding) : Alike f s k (w.note finding) u :=
  ⟨a.forest, a.stats, a.registry, a.seen⟩

theorem note_right (finding : Finding) : Alike f s k w (u.note finding) :=
  ⟨a.forest, a.stats, a.registry, a.seen⟩

theorem define (hx : f.Sees s x) (name : Option String) :
    Alike f s k (w.define name x) (u.define name (f.shift k x)) := by
  cases name
  case none => exact a
  case some name =>
    have same := a.lookup?_eq name
    cases hl : w.registry.lookup? name
    case some =>
      rw [hl] at same
      rw [define_of_taken hl, define_of_taken same]
      exact (a.note_left _).note_right _
    case none =>
      rw [hl] at same
      rw [define_of_free hl, define_of_free same]
      refine ⟨a.forest, by simp [a.stats], by simp [a.registry], fun {e} he => ?_⟩
      rcases List.mem_append.mp he with he | he
      · exact a.seen he
      · exact List.mem_singleton.mp he ▸ hx

end Registries

/- Promotions -/

theorem isSome_refusal? (a : Alike f s k w u) (v : w.forest.Valid) (hx : f.Sees s x) (hs : x ≠ s) :
    (u.refusal? (f.shift k x)).isSome = (w.refusal? x).isSome := by
  rw [Workspace.refusal?, Workspace.refusal?, a.forest.nearestName?_eq v hx hs]
  cases w.forest.nearestName? x
  case none => rfl
  case some name =>
    simp only [Option.bind_some, Registry.refusal?, a.contains_eq]
    split <;> rfl

theorem promoteAs {name : Option String} (a : Alike f s k w u) (hx : f.Sees s x) (hs : x ≠ s)
    (hw : w.promoteAs name x doc = (.ok cls, w'))
    (hu : u.promoteAs name (f.shift k x) doc = (.ok cls', u')) : Alike f s k w' u' := by
  unfold Workspace.promoteAs at hw hu
  split at hw
  case h_2 | h_3 => cases hw
  case h_1 bare own parameters body hb =>
    obtain ⟨bare', hb', m, sees⟩ := a.forest.detachChildren hx hb
    simp only [List.forall_mem_cons] at sees
    have added := m.addPromoted hx sees.left sees.right.left sees.right.right.left doc
    rw [hb'] at hu
    simp only [List.map_cons, List.map_nil] at hw hu
    split at hw
    case h_2 => cases hw
    case h_1 g hg =>
      split at hu
      case h_2 => cases hu
      case h_1 h hh =>
        cases hw
        cases hu
        have forest := added.replaceWith hx hs hg hh
        have counted : Alike f s k ({ w with forest := g }.countPromotion)
            ({ u with forest := h }.countPromotion) :=
          ⟨forest, by simp [countPromotion, a.stats], a.registry, a.seen⟩
        rw [added.ref]
        exact counted.define added.sees name

-- Where one function becomes a class, the other one does.
theorem exists_promoteAs {name : Option String} (a : Alike f s k w u) (v : w.forest.Valid)
    (v' : u.forest.Valid) (hx : f.Sees s x) (hd : w.forest.constructorDoc? x = some doc)
    (hd' : u.forest.constructorDoc? (f.shift k x) = some doc)
    (hw : w.promoteAs name x doc = (.ok cls, w')) :
    ∃ cls' u', u.promoteAs name (f.shift k x) doc = (.ok cls', u') := by
  obtain ⟨q, g, rfl, -, promotes, -⟩ := promoteAs_ok v (constructorDoc?_lt hd) hw
  have attached : u.forest.parent (f.shift k q.function) ≠ none := by
    rw [a.forest.parent_eq hx]
    exact shift_eq_none.not.mpr promotes.attached
  rcases hu : u.promoteAs name (f.shift k q.function) doc with ⟨⟨e⟩ | ⟨cls'⟩, u'⟩
  case ok => exact ⟨cls', u', rfl⟩
  case error =>
    have ⟨_, _, parts⟩ := promoteAs_error v' (constructorDoc?_lt hd') attached hu
    rw [a.forest.children_eq hx, List.length_map, promotes.parts] at parts
    exact absurd rfl parts

theorem promote {result : Option Ref} (a : Alike f s k w u) (v : w.forest.Valid) (v' : u.forest.Valid)
    (root : w.forest.kind? s = some .script) (hx : f.Sees s x) (hk : w.forest.kind? x = some .function)
    (hd : w.forest.constructorDoc? x = some doc) (hw : w.promote x doc = (.ok result, w')) :
    ∃ result' u', u.promote (f.shift k x) doc = (.ok result', u') ∧ Alike f s k w' u' := by
  have hs : x ≠ s := Mirror.ne_root root hk (by simp)
  have hk' := (a.forest.kind?_eq hx).trans hk
  have hd' := (a.forest.constructorDoc?_eq root hx hs).trans hd
  have named := a.forest.nearestName?_eq v hx hs
  have refused := a.isSome_refusal? v hx hs
  unfold Workspace.refusal? at refused
  unfold Workspace.promote at hw ⊢
  rw [expectKind_eq_ok (u := ()) |>.mpr hk] at hw
  rw [expectKind_eq_ok (u := ()) |>.mpr hk']
  simp only at hw ⊢
  split at hw
  case h_1 finding taken =>
    rw [taken, Option.isSome_some, Option.isSome_iff_exists] at refused
    obtain ⟨finding', taken'⟩ := refused
    cases hw
    rw [taken']
    exact ⟨none, _, rfl, (a.note_left _).note_right _⟩
  case h_2 free =>
    rw [free, Option.isSome_none, Option.isSome_eq_false_iff, Option.isNone_iff_eq_none] at refused
    rw [refused, named]
    rcases ha : w.promoteAs (w.forest.nearestName? x) x doc with ⟨⟨e⟩ | ⟨cls⟩, w₁⟩ <;> rw [ha] at hw
    case error => cases hw
    case ok =>
      cases hw
      obtain ⟨cls', u₁, ha'⟩ := a.exists_promoteAs v v' hx hd hd' ha
      exact ⟨some cls', u₁, by rw [ha']; rfl, a.promoteAs hx hs ha ha'⟩

/- Merges -/

theorem moveInto {members member member' : Ref} {isStatic : Bool} (a : Alike f s k w u)
    (hx : f.Sees s m.statement ∧ m.statement ≠ s) (hv : f.Sees s m.value ∧ m.value ≠ s)
    (hm : f.Sees s members) (hw : w.moveInto members m name isStatic = (.ok member, w'))
    (hu : u.moveInto (f.shift k members) (m.renumber (f.shift k)) name isStatic = (.ok member', u')) :
    Alike f s k w' u' := by
  unfold Workspace.moveInto at hw hu
  rcases g₁ : w.forest.detach m.statement with e | g <;> simp only [g₁] at hw
  case error => cases hw
  rcases h₁ : u.forest.detach (f.shift k m.statement) with e | h <;>
    simp only [MemberAssignment.renumber, h₁] at hu
  case error => cases hu
  have m₁ := a.forest.detach hx.left hx.right g₁ h₁
  rcases g₂ : g.detach m.value with e | g <;> simp only [g₂] at hw
  case error => cases hw
  rcases h₂ : h.detach (f.shift k m.value) with e | h <;> simp only [h₂] at hu
  case error => cases hu
  have m₂ := m₁.detach hv.left hv.right g₂ h₂
  have lifted := (m₂.addMember name isStatic hv.left).copySpan hx.left |>.setDoc m.doc
  split at hw
  case h_1 => cases hw
  case h_2 g hg =>
    split at hu
    case h_1 => cases hu
    case h_2 h hh =>
      cases hw
      cases hu
      exact ⟨lifted.appendChild hm hg hh, by simp [countMerge, a.stats], a.registry, a.seen⟩

section Methods

variable (a : Alike f s k w u) (v : w.forest.Valid) (v' : u.forest.Valid)
variable (root : w.forest.kind? s = some .script) (hx : f.Sees s m.statement) (view : m.IsView w.forest)
variable (isMethod : m.isMethod w.forest)
include a v v' hx view isMethod

-- One function joins a class where the other one does.
theorem joins_iff : (m.renumber (f.shift k)).Joins u options cls' className name ↔
    ∃ cls, f.shift k cls = cls' ∧ m.Joins w options cls className name := by
  have o := a.forest
  obtain ⟨-, target, value⟩ := view.sees o hx
  have ne := (has_of_kind? (isKind_iff.mp isMethod)).ne_none
  have static := MemberAssignment.isStatic_mirror o target
  have named := MemberAssignment.memberName?_mirror o target
  obtain ⟨found, ofClass⟩ := MemberAssignment.className?_isOk view.target.right
  have ofClass' := MemberAssignment.className?_mirror o target v ofClass
  have within (cls : Ref) := o.isWithin_eq (x := cls) v v' value ne
  constructor
  case mp =>
    intro j
    have registered := j.registered
    rw [a.lookup?_eq, Option.map_eq_some_iff] at registered
    obtain ⟨cls, registered, rfl⟩ := registered
    cases ofClass'.symm.trans j.ofClass
    exact ⟨cls, rfl, fun h => j.allowed (static.trans h), ofClass, registered, named ▸ j.named,
      (within cls).symm.trans j.apart⟩
  case mpr =>
    rintro ⟨cls, rfl, j⟩
    cases ofClass.symm.trans j.ofClass
    exact ⟨fun h => j.allowed (static.symm.trans h), ofClass',
      by rw [a.lookup?_eq, j.registered, Option.map_some], named.trans j.named, (within cls).trans j.apart⟩

variable (onScript : w.forest.kind? (w.forest.parent m.statement) = some .script)
include root onScript

-- Where one function stays, the other one does.
theorem merge_of_not_joins (out : ∀ cls className name, ¬m.Joins w options cls className name) :
    ∃ u', u.merge options (m.renumber (f.shift k)) = (.ok none, u') ∧ Alike f s k w u' := by
  have o := a.forest
  obtain ⟨-, -, value⟩ := view.sees o hx
  have view' := view.renumber o hx
  have isMethod' : (m.renumber (f.shift k)).isMethod u.forest := (o.isKind_eq value _).trans isMethod
  have onScript' := (o.kind?_parent_eq root hx view.statement (by simp)).trans onScript
  have out' (cls : Ref) (className name : String) :
      ¬(m.renumber (f.shift k)).Joins u options cls className name := fun j =>
    have ⟨_, _, joins⟩ := (a.joins_iff v v' hx view isMethod).mp j
    out _ _ _ joins
  rcases hu : u.merge options (m.renumber (f.shift k)) with ⟨⟨e⟩ | ⟨result⟩, u'⟩
  case ok =>
    cases merge_ok v' (view'.doc_lt v') hu
    case stays => exact ⟨u, rfl, a⟩
    case unknown => exact ⟨_, rfl, a.note_right _⟩
    case joins joins _ _ => exact absurd joins (out' _ _ _)
  case error =>
    obtain ⟨-, fails⟩ := merge_error v' view' onScript' isMethod' hu
    cases fails
    case function kind _ _ _ => cases view'.statement.symm.trans kind
    case list of view'' _ _ joins _ => exact absurd (view''.unique view' of ▸ joins) (out' _ _ _)

omit v in
-- Where one function can be moved, the other one can.
theorem exists_moveInto {isStatic : Bool}
    (joins : (m.renumber (f.shift k)).Joins u options cls className name)
    (list : u.forest.kind? (u.forest.members cls) = some .classMembers) :
    ∃ member u', u.moveInto (u.forest.members cls) (m.renumber (f.shift k)) name isStatic =
      (.ok member, u') := by
  have o := a.forest
  obtain ⟨-, -, seesValue⟩ := view.sees o hx
  have value := has_of_kind? ((o.kind?_eq seesValue).trans (isKind_iff.mp isMethod))
  have onScript' := has_of_kind? ((o.kind?_parent_eq root hx view.statement (by simp)).trans onScript)
  have view' := view.renumber o hx
  exact moveInto_isOk v' view' onScript'.ne_none value.ne_none (has_of_kind? list)
    (not_contains_members v' view' value.ne_none joins list) name isStatic

theorem merge {result : Option Ref} (hw : w.merge options m = (.ok result, w')) :
    ∃ result' u', u.merge options (m.renumber (f.shift k)) = (.ok result', u') ∧ Alike f s k w' u' := by
  have o := a.forest
  cases merge_ok v (view.doc_lt v) hw
  case stays out _ =>
    obtain ⟨u', hu, after⟩ := a.merge_of_not_joins v v' root hx view isMethod onScript out
    exact ⟨none, u', hu, after⟩
  case unknown out _ _ _ =>
    obtain ⟨u', hu, after⟩ := a.merge_of_not_joins v v' root hx view isMethod onScript out
    exact ⟨none, u', hu, after.note_left _⟩
  case joins cls member className name g j list merges =>
    obtain ⟨-, target, value⟩ := view.sees o hx
    have hc := a.sees_lookup j.registered
    have hm := o.sees_members hc
    have list' := (o.kind?_eq hm).trans list
    rw [← o.members_eq hc] at list'
    have j' := (a.joins_iff v v' hx view isMethod).mpr ⟨cls, rfl, j⟩
    rw [merge_of_joins j list] at hw
    rw [merge_of_joins j' list', MemberAssignment.isStatic_mirror o target]
    rcases hw' : w.moveInto (w.forest.members cls) m name (m.isStatic w.forest)
      with ⟨⟨e⟩ | ⟨member⟩, w₁⟩ <;> simp only [hw'] at hw <;> cases hw
    obtain ⟨member', u₁, hu⟩ := a.exists_moveInto v' root hx view isMethod onScript j' list'
    refine ⟨some member', u₁, by rw [hu]; rfl, ?_⟩
    rw [o.members_eq hc] at hu
    have hs := Mirror.ne_root root view.statement (by simp)
    exact a.moveInto ⟨hx, hs⟩ ⟨value, Mirror.ne_root root (isKind_iff.mp isMethod) (by simp)⟩ hm hw' hu

end Methods

/- Visits -/

theorem visit {change : Option Change} (a : Alike f s k w u) (v : w.forest.Valid) (v' : u.forest.Valid)
    (root : w.forest.kind? s = some .script) (hx : f.Sees s x)
    (hw : w.visit options x = (.ok change, w')) :
    ∃ change' u', u.visit options (f.shift k x) = (.ok change', u') ∧ Alike f s k w' u' := by
  have o := a.forest
  unfold Workspace.visit at hw ⊢
  rw [o.kind?_eq hx]
  split at hw
  case h_1 hk =>
    cases hw
    rw [o.nearestName?_eq v hx (Mirror.ne_root root hk (by simp))]
    exact ⟨none, _, rfl, a.define hx _⟩
  case h_2 hk =>
    rw [o.constructorDoc?_eq root hx (Mirror.ne_root root hk (by simp))]
    split at hw
    case h_1 =>
      cases hw
      exact ⟨none, u, rfl, a⟩
    case h_2 doc hd =>
      rcases hp : w.promote x doc with ⟨⟨e⟩ | ⟨result⟩, w₁⟩ <;> rw [hp] at hw <;> cases hw
      obtain ⟨result', u₁, hu, after⟩ := a.promote v v' root hx hk hd hp
      rw [hu]
      exact ⟨_, u₁, rfl, after⟩
  case h_3 hk =>
    have above := o.sees_above root hx hk (by simp)
    rw [o.parent_eq hx, o.isKind_eq above, MemberAssignment.ofStatement?_mirror o hx]
    split at hw
    case isFalse other =>
      cases hw
      exact ⟨none, u, if_neg other, a⟩
    case isTrue onScript =>
      simp only [onScript, if_true]
      split at hw
      case h_1 other =>
        cases hw
        exact ⟨none, u, by rw [other]; rfl, a⟩
      case h_2 m of =>
        obtain ⟨rfl, view⟩ := MemberAssignment.ofStatement?_eq_some.mp of
        obtain ⟨-, -, seesValue⟩ := view.sees o hx
        have method : (m.renumber (f.shift k)).isMethod u.forest = m.isMethod w.forest :=
          o.isKind_eq seesValue _
        simp only [of, Option.map_some, method]
        split at hw
        case isFalse other =>
          cases hw
          exact ⟨none, u, if_neg other, a⟩
        case isTrue isMethod =>
          rcases hp : w.merge options m with ⟨⟨e⟩ | ⟨result⟩, w₁⟩ <;> rw [hp] at hw <;> cases hw
          obtain ⟨result', u₁, hu, after⟩ :=
            a.merge v v' root hx view isMethod (isKind_iff.mp onScript) hp
          rw [if_pos isMethod, hu]
          exact ⟨_, u₁, rfl, after⟩
  case h_4 c₁ c₂ c₃ =>
    cases hw
    exact ⟨none, u, rfl, a⟩

end Alike

/- Runs -/

namespace Hosts

variable {options : Options} {w u w' : Workspace} {log log' log₁ : Log} {done rs rest : List Ref}

theorem has (o : Hosts f e s) (hc : f.Contains s x) (hx : f.Has x) : e.Has x := by
  rwa [Has, o.node hc]

-- The nodes of the tree are visited in the same order.
theorem postorder_eq (o : Hosts f e s) (v : f.Valid) (hs : f.Has s) : e.postorder s = f.postorder s := by
  have shallow : f.Shallow (f.size + 1) s := v.shallow hs.ne_none
  rw [Forest.postorder, postorderWithin_congr v fun x => o.children_eq,
    postorderWithin_eq v (shallow.mono (Nat.succ_le_succ o.size)) shallow, ← Forest.postorder]

theorem visitAll (o : Hosts f e s) (v : f.Valid) (hs : f.kind? s = some .script)
    (order : f.postorder s = done ++ (rs ++ rest)) (p : Progress f done log w)
    (p' : Progress e done log' u) (a : Alike f s k w u)
    (hw : Workspace.visitAll options rs w = (log₁, .ok (), w')) :
    ∃ log₂ u', Workspace.visitAll options rs u = (log₂, .ok (), u') ∧ Alike f s k w' u' := by
  have has := has_of_kind? hs
  have same := o.postorder_eq v has
  induction rs generalizing done log log' w u log₁
  case nil =>
    cases hw
    exact ⟨[], u, rfl, a⟩
  case cons r rs ih =>
    rcases hr : w.visit options r with ⟨⟨e⟩ | ⟨change⟩, w₁⟩
    case error => simp [visitAll_cons_error hr] at hw
    case ok =>
      simp only [visitAll_cons_ok hr, Prod.mk.injEq] at hw
      have t := turn_of_postorder v has order
      have t' := turn_of_postorder o.valid (o.has .refl has) (same.trans order)
      have root := (p.ext.kind? has).trans hs
      have sees := sees_of_contains (contains_of_postorder v has order).left
      obtain ⟨change', u₁, hu, a₁⟩ := a.visit p.valid p'.valid root sees hr
      rw [shift_of_has t.has] at hu
      obtain ⟨log₂, u', hu', a'⟩ := ih (by simpa using order) (p.visit v t hr) (p'.visit o.valid t' hu) a₁
        (Prod.ext rfl hw.right)
      exact ⟨_, u', by rw [visitAll_cons_ok hu, hu'], a'⟩

-- What one forest makes of the tree, the other one does, too.
theorem runScript (o : Hosts f e s) (v : f.Valid) (ok : f.runScript options s = (.ok (), w)) :
    ∃ u, e.runScript options s = (.ok (), u) ∧ Alike f s (e.size - f.size) w u := by
  have hs := (run_of_ok v ok).left
  have has := has_of_kind? hs
  have hs' : e.kind? s = some .script := (o.kind?_eq .refl).trans hs
  rw [runScript_eq_foldScript v, foldScript_of_kind hs] at ok
  have order : f.postorder s = [] ++ (f.postorder s ++ []) := by simp
  have start : Alike f s (e.size - f.size) { forest := f } { forest := e } :=
    ⟨o.mirror v, rfl, rfl, nofun⟩
  obtain ⟨log, u, hu, a⟩ := o.visitAll v hs order (.start v) (.start o.valid) start (Prod.ext rfl ok)
  refine ⟨u, ?_, a⟩
  rw [runScript_eq_foldScript o.valid, foldScript_of_kind hs', o.postorder_eq v has, hu]

end Hosts

end ClassLift
