import ClassLift.Proofs.Convert.Failure
import ClassLift.Proofs.Convert.Names
import ClassLift.Proofs.Convert.Placement
import ClassLift.Proofs.Convert.Traversal
import ClassLift.Proofs.Naming.BaseType

/-!
One promotion, from the function to the class. The class stands where the function stood, under the
name that it had, and consists of the parts of the function and of new nodes. All else stays as it is.
-/

namespace ClassLift

open Forest

namespace Forest

variable {f g : Forest} {r x function : Ref} {doc : Nat} {q : Promoted} {k : Kind} {base : String}

/- The place -/

theorem indexInParent?_eq (f : Forest) (r : Ref) :
    f.indexInParent? r = (f.children (f.parent r)).findIdx? (· == r) := by
  unfold indexInParent? children
  cases f.node? (f.parent r) <;> rfl

theorem findIdx?_substitute {cs : List Ref} {old new : Ref} (fresh : new ∉ cs) :
    (cs.map fun c => if c = old then new else c).findIdx? (· == new) = cs.findIdx? (· == old) := by
  induction cs
  case nil => rfl
  case cons c cs ih =>
    have ⟨hc, hcs⟩ := not_or.mp (List.mem_cons.not.mp fresh)
    rw [List.map_cons, List.findIdx?_cons, List.findIdx?_cons, ih hcs]
    by_cases e : c = old
    case pos => simp [e]
    case neg => simp [e, Ne.symm hc]

namespace Promotes

variable (p : f.Promotes g doc q) (v : f.Valid)
include p v

theorem children_parent : g.children (f.parent q.function) =
    (f.children (f.parent q.function)).map fun c => if c = q.function then q.cls else c := by
  rw [p.old (v.has_parent p.attached), if_neg (v.parent_ne p.has_function.ne_none)]

theorem indexInParent?_cls : g.indexInParent? q.cls = f.indexInParent? q.function := by
  rw [indexInParent?_eq, indexInParent?_eq, p.parent_cls v, p.children_parent v]
  exact findIdx?_substitute fun mem => p.new_cls.right (v.has_child mem)

theorem children_of_ne (hr : f.Has r) (hn : r ≠ q.function) (hp : r ≠ f.parent q.function) :
    g.children r = f.children r := by
  rw [p.old hr, if_neg hn]
  refine (List.map_congr_left fun c hc => if_neg ?_).trans (List.map_id _)
  rintro rfl
  exact hp (v.parent_eq hc).symm

end Promotes

end Forest

/- The name -/

-- As long as nothing has changed, it makes no difference which nodes count as visited.
theorem Progress.idle {f : Forest} {r : Ref} (v : f.Valid) (hr : r ≠ none) :
    Progress f (f.postorder r) [] { forest := f } where
  valid        := v
  ext          := .refl f
  below h hc   := (v.mem_postorder hr).mpr (((v.mem_postorder hr).mp h).trans (v.contains_child hc))
  contents     := (Progress.start v).contents
  fresh hr hc  := absurd (has_of_mem_children hc) hr
  promoted h   := nomatch h
  merged h     := nomatch h
  registered h := nomatch h

namespace Forest.Promotes

variable {f g : Forest} {r : Ref} {doc : Nat} {q : Promoted} (p : f.Promotes g doc q) (v : f.Valid)
include p v

theorem placed : Placed f [.promotion q.function q.cls] g q.function := by
  have image {x : Ref} : Log.image [.promotion q.function q.cls] x = if q.function = x then q.cls else x := by
    by_cases e : q.function = x <;> simp [Log.image, Log.cls?, Change.cls?, e]
  have above := v.parent_ne p.has_function.ne_none
  refine ⟨p.has_function, ?_, fun _ => ?_, fun _ => ?_, fun {x} hx e => ?_⟩
  · rw [image, if_pos rfl, p.parent_cls v]
  · refine p.parent_of_ne v (v.has_parent p.attached) above fun e => ?_
    have up := contains_parent f (f.parent q.function)
    rw [e] at up
    exact v.not_contains_parent p.has_function.ne_none up
  · simp [Log.statements, Change.statement?]
  · rw [image, image, if_pos rfl] at e
    split at e
    case isTrue same => exact same.symm
    case isFalse => exact absurd (e ▸ hx) p.new_cls.right

-- The class is bound where the function was, and has its own name, too.
theorem nearestName?_cls (kind : f.kind? q.function = some .function) :
    g.nearestName? q.cls = f.nearestName? q.function := by
  have has := p.has_function.ne_none
  have visited : q.function ∈ f.postorder q.function := (v.mem_postorder has).mpr .refl
  have progress : Progress f (f.postorder q.function) [.promotion q.function q.cls] { forest := g } :=
    (Progress.idle v has).promote kind visited rfl p rfl rfl
  have image : Log.image [.promotion q.function q.cls] q.function = q.cls :=
    Log.image_of_some (by simp [Log.cls?, Change.cls?])
  have name := (p.placed v).nearestName?_eq progress v (by rw [image, p.ownName?_filter v])
  rwa [image] at name

end Forest.Promotes

/- The whole -/

namespace Forest

variable {f g : Forest} {r : Ref} {doc : Nat} {q : Promoted}

-- The class is where the function was, under the same name, and the function hangs nowhere.
structure TakesPlace (f g : Forest) (q : Promoted) : Prop where
  parent  : g.parent q.cls = f.parent q.function
  index   : g.indexInParent? q.cls = f.indexInParent? q.function
  beside  : g.children (f.parent q.function) =
    (f.children (f.parent q.function)).map fun c => if c = q.function then q.cls else c
  binding : g.nearestName? q.cls = f.nearestName? q.function
  left    : g.parent q.function = none ∧ g.children q.function = []

-- The class with a name, a superclass and one member, into which parameters and body have moved.
structure Consists (f g : Forest) (doc : Nat) (q : Promoted) : Prop where
  new       : ∀ r ∈ [q.cls, q.superclass, q.members, q.constructor, q.moved, q.noName], ¬f.Has r
  className : f.Names g q.name q.className
  extended  : ∀ base, f.baseName? doc = some base → g.qualifiedName? q.superclass = some base
  plain     : f.baseName? doc = none → g.kind? q.superclass = some .empty ∧ g.children q.superclass = []
  members   : g.node? q.members =
    some { kind := .classMembers, parent := q.cls, children := [q.constructor] }
  name      : g.text? q.constructor = some "constructor"
  noName    : g.node? q.noName = some { kind := .empty, parent := q.moved }
  nodes     : ∃ n data, f.node? q.function = some n ∧
    g.node? q.cls = some { classNode n with
      parent := f.parent q.function, children := [q.className, q.superclass, q.members] } ∧
    g.node? q.constructor = some { constructorNode n data doc with
      parent := q.members, children := [q.moved] } ∧
    g.node? q.moved = some { movedNode n with
      parent := q.constructor, children := [q.noName, q.parameters, q.body] }

-- Only the function, what holds it and its parts have other edges than before.
structure KeepsRest (f g : Forest) (q : Promoted) : Prop where
  labels   : ∀ r, f.Has r → g.label? r = f.label? r
  parents  : ∀ r, f.Has r → r ∉ [q.function, q.name, q.parameters, q.body] → g.parent r = f.parent r
  children : ∀ r, f.Has r → r ∉ [q.function, f.parent q.function] → g.children r = f.children r

structure StandsFor (f g : Forest) (doc : Nat) (q : Promoted) : Prop where
  check : g.check = .ok ()
  place : f.TakesPlace g q
  parts : f.Consists g doc q
  rest  : f.KeepsRest g q

namespace Promotes

variable (p : f.Promotes g doc q) (v : f.Valid)
include p v

theorem takesPlace (kind : f.kind? q.function = some .function) : f.TakesPlace g q where
  parent  := p.parent_cls v
  index   := p.indexInParent?_cls v
  beside  := p.children_parent v
  binding := p.nearestName?_cls v kind
  left    := ⟨p.parent_function v, by rw [p.old p.has_function, if_pos rfl]⟩

theorem keepsRest : f.KeepsRest g q where
  labels _ hr := p.ext.label hr
  parents r hr hn := by
    have ⟨function, part⟩ := not_or.mp (List.mem_cons.not.mp hn)
    refine p.parent_of_ne v hr function fun up => part ?_
    exact p.parts ▸ v.mem_children.mpr ⟨up, p.has_function.ne_none⟩
  children r hr hn := by
    simp only [List.mem_cons, List.not_mem_nil, or_false, not_or] at hn
    exact p.children_of_ne v hr hn.left hn.right

omit v in
-- A base type that has a name is a path.
theorem extended (d : f.Details g doc q) {base : String} (named : f.baseName? doc = some base) :
    g.qualifiedName? q.superclass = some base := by
  obtain ⟨_, _, isType⟩ := Option.bind_eq_some_iff.mp named
  obtain ⟨text, _, normal⟩ := Option.bind_eq_some_iff.mp isType
  have path := Path.ofText?_eq_some.mpr ⟨(BaseType.normalize?_eq_some.mp normal).not_mem_split, rfl⟩
  have chain := d.superclass
  rw [named, IsSuperclass, Option.bind_some, path] at chain
  rw [chain.qualifiedName?_eq p.valid, Path.toText_split]

theorem consists (d : f.Details g doc q) : f.Consists g doc q := by
  obtain ⟨_, data, label, text, newClass⟩ := p.newClass
  obtain ⟨⟨_, labels⟩, superclass⟩ := id d
  cases label.symm.trans labels.function
  obtain ⟨n, hn, rfl⟩ := Option.map_eq_some_iff.mp label
  have up {r s : Ref} (below : s ∈ g.children r) : g.parent s = r := p.valid.parent_eq below
  refine ⟨fun r hr => (newClass.new r hr).right, newClass.names, fun _ => p.extended d, fun none => ?plain,
    ?members, ?name, ?noName, n, data, hn, ?cls, ?constructor, ?moved⟩
  case plain => simpa [IsSuperclass, none] using superclass
  case members =>
    rw [node?_of_label? labels.members, newClass.members, up (r := q.cls) (by simp [newClass.cls])]
  case name => simp [text?_eq_label?, newClass.label, constructorNode, Kind.hasText, text]
  case noName =>
    obtain ⟨has, new⟩ := newClass.new q.noName (by simp)
    have sprout := (newClass.only new has).resolve_left
      (newClass.not_mem_of_kind rfl (by simp) newClass.noName)
    have leaf := children_leaf sprout.formed newClass.noName rfl
    rw [node?_of_label? labels.noName, leaf, up (r := q.moved) (by simp [newClass.moved])]
  case cls =>
    rw [node?_of_label? labels.cls, newClass.cls, p.parent_cls v]
    rfl
  case constructor =>
    rw [node?_of_label? newClass.label, newClass.constructor, up (r := q.members) (by simp [newClass.members])]
    rfl
  case moved =>
    rw [node?_of_label? labels.moved, newClass.moved, up (r := q.constructor) (by simp [newClass.constructor])]
    rfl

end Promotes

end Forest

namespace Workspace

-- The class has been put in place, and defined if it has a name.
def lifted (w : Workspace) (g : Forest) (name : Option String) (cls : Ref) : Workspace where
  forest   := g
  registry := { entries := w.registry.entries ++ (name.map (·, cls)).toList }
  findings := w.findings
  stats    := { w.stats with
    codeChanges := w.stats.codeChanges + 1
    classesPromoted := w.stats.classesPromoted + 1
    classesRegistered := w.stats.classesRegistered + name.toList.length }

variable {w : Workspace}

theorem define_eq_lifted {g : Forest} {name : Option String} {cls : Ref}
    (free : ∀ className, name = some className → w.registry.lookup? className = none) :
    ({ w with forest := g }.countPromotion).define name cls = w.lifted g name cls := by
  cases name
  case none => simp [define, lifted, countPromotion]
  case some className =>
    exact define_of_free (w := { w with forest := g }.countPromotion) (free className rfl) cls

-- A function whose name is taken stays, which is a finding, and otherwise a class stands for it.
theorem function_promoted (h : w.forest.check = .ok ()) {function name parameters body : Ref} {doc : Nat}
    (kind : w.forest.kind? function = some .function) (attached : w.forest.parent function ≠ none)
    (parts : w.forest.children function = [name, parameters, body]) (hd : doc < w.forest.docs.size) :
    (∀ className, w.forest.nearestName? function = some className → w.registry.contains className →
      w.promote function doc =
        (.ok none, w.note (.at w.forest .classRedefined function className))) ∧
    ((∀ className, w.forest.nearestName? function = some className →
        w.registry.contains className = false) →
      ∃ (q : Promoted) (g : Forest), q.function = function ∧ q.name = name ∧
        q.parameters = parameters ∧ q.body = body ∧ w.forest.StandsFor g doc q ∧
        w.promote function doc =
          (.ok (some q.cls), w.lifted g (w.forest.nearestName? function) q.cls)) := by
  have v := valid_of_check h
  have isFunction : w.forest.expectKind function .function = .ok () := expectKind_eq_ok.mpr kind
  refine ⟨fun className named taken => ?taken, fun free => ?free⟩
  case taken =>
    obtain ⟨r, found⟩ := Option.isSome_iff_exists.mp taken
    simp only [promote, isFunction, named, Option.bind_some, Registry.refusal?_of_taken found]
  case free =>
    have free (className : String) (named : w.forest.nearestName? function = some className) :
        w.registry.lookup? className = none := by
      simpa [Registry.contains] using free className named
    have allowed : (w.forest.nearestName? function).bind (w.registry.refusal? w.forest · function) = none := by
      refine Option.bind_eq_none_iff.mpr fun className named => ?_
      exact Registry.refusal?_of_free (free className named) ..
    obtain ⟨cls, w', ok⟩ := promoteAs_isOk v (w.forest.nearestName? function) hd attached (by simp [parts])
    obtain ⟨q, g, rfl, rfl, promotes, rfl, details⟩ := promoteAs_ok v hd ok
    have same : [q.name, q.parameters, q.body] = [name, parameters, body] := promotes.parts.symm.trans parts
    simp only [List.cons.injEq, and_true] at same
    obtain ⟨rfl, rfl, rfl⟩ := same
    refine ⟨q, g, rfl, rfl, rfl, rfl, ⟨check_of_valid promotes.valid, promotes.takesPlace v kind,
      promotes.consists v details, promotes.keepsRest v⟩, ?_⟩
    simp only [promote, isFunction, allowed, ok, Except.map, define_eq_lifted free]

-- The function `A` of the sample becomes a class, unless the method of the sample has the name already.
theorem function_promoted_sample :
    (∃ (q : Promoted) (g : Forest), sample.StandsFor g 0 q ∧ g.nearestName? q.cls = some "A" ∧
      ({ forest := sample } : Workspace).promote (some 1) 0 =
        (.ok (some q.cls), ({ forest := sample } : Workspace).lifted g (some "A") q.cls)) ∧
    let w : Workspace := { forest := sample, registry := { entries := [("A", some 12)] } }
    w.promote (some 1) 0 = (.ok none, w.note (.at sample .classRedefined (some 1) "A")) := by
  have named : sample.nearestName? (some 1) = some "A" := rfl
  have attached : sample.parent (some 1) ≠ none := by decide
  have doc : 0 < sample.docs.size := by decide
  constructor
  case left =>
    have ⟨_, free⟩ := function_promoted (w := { forest := sample }) sample_check rfl attached rfl doc
    obtain ⟨q, g, ofFunction, -, -, -, stands, ok⟩ := free fun _ _ => rfl
    have binding := stands.place.binding
    rw [ofFunction] at binding
    rw [show ({ forest := sample } : Workspace).forest.nearestName? (some 1) = some "A" from named] at ok
    exact ⟨q, g, stands, binding.trans named, ok⟩
  case right =>
    intro w
    have ⟨taken, _⟩ := function_promoted (w := w) sample_check rfl attached rfl doc
    exact taken "A" named rfl

end Workspace

end ClassLift
