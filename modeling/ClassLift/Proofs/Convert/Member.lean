import ClassLift.Convert.Member
import ClassLift.Proofs.Convert.Registry
import ClassLift.Proofs.Tree.Edits

/-!
What a merge does to a valid forest, and when there is one.
-/

namespace ClassLift

namespace Forest

variable {f g h : Forest} {r : Ref}

-- The member that a function becomes.
def memberNode (n : Node) (isStatic : Bool) (data : Nat) (doc : Option Nat) : Node where
  kind := .memberFunction
  flags := if isStatic then .static else {}
  pos := n.pos
  stop := n.stop
  data := some data
  doc := doc

-- The statement is taken out of its list, the function out of the statement, and a new member with
-- the function below it comes last in `members`.
structure Merges (f g : Forest) (m : MemberAssignment) (members member : Ref) (name : String)
    (isStatic : Bool) : Prop where
  valid    : g.Valid
  ext      : g.Extends f
  attached : f.parent m.statement ≠ none ∧ f.parent m.value ≠ none
  ne       : m.value ≠ m.statement
  has      : f.Has members
  new      : ¬f.Has member
  nodes    : ∀ {r}, g.Has r → r = member ∨ f.Has r
  only     : ∀ r, ¬f.Has r → r ≠ member → g.children r = []
  old      : ∀ {r}, f.Has r → g.children r =
    ((f.children r).erase m.statement).erase m.value ++ if r = members then [member] else []
  below    : g.children member = [m.value]
  text     : g.text? member = some name
  label    : ∃ n data, f.label? m.statement = some n ∧
    g.label? member = some (memberNode n isStatic data m.doc)

theorem Adds.markMember {cs : List Ref} {n : Node} {source : Ref} {data : Nat} {isStatic : Bool}
    (doc : Option Nat)
    (d : f.Adds g r {
      kind := .memberFunction, flags := if isStatic then .static else {}, data := some data } cs)
    (hn : f.label? source = some n) (hd : ∀ {i}, doc = some i → i < f.docs.size) :
    f.Adds ((g.copySpan source r).setDoc r doc) r (memberNode n isStatic data doc) cs :=
  (d.copySpan hn).setDoc doc hd

-- The member with the function below it, beside the tree that it is to be put in.
structure Lifts (f g : Forest) (m : MemberAssignment) (member : Ref) (name : String)
    (isStatic : Bool) : Prop where
  valid    : g.Valid
  ext      : g.Extends f
  attached : f.parent m.statement ≠ none ∧ f.parent m.value ≠ none
  ne       : m.value ≠ m.statement
  has      : ∀ r, g.Has r ↔ r = member ∨ f.Has r
  new      : ¬f.Has member
  free     : g.parent member = none
  old      : ∀ {r}, f.Has r → g.children r = ((f.children r).erase m.statement).erase m.value
  below    : g.children member = [m.value]
  contains : ∀ {a x}, f.Has a → g.Contains a x → f.Contains a x
  text     : g.text? member = some name
  label    : ∃ n data, f.label? m.statement = some n ∧
    g.label? member = some (memberNode n isStatic data m.doc)

theorem lifts_of_detach (v : f.Valid) {f₁ f₂ g : Forest} {m : MemberAssignment} {member : Ref}
    {name : String} {isStatic : Bool} (hd : ∀ {i}, m.doc = some i → i < f.docs.size)
    (h₁ : f.detach m.statement = .ok f₁) (h₂ : f₁.detach m.value = .ok f₂)
    (h₃ : f₂.addMember name isStatic m.value = (g, member)) :
    f.Lifts ((g.copySpan m.statement member).setDoc member m.doc) m member name isStatic := by
  have hs := (detach_eq_ok.mp h₁).left
  obtain ⟨n, hn⟩ := Option.isSome_iff_exists.mp <| has_iff_label?.mp hs
  have d₁ := detaches_of_ok v h₁
  have v₁ := d₁.valid v
  have d₂ := detaches_of_ok v₁ h₂
  have v₂ := d₂.valid v₁
  have e₂ : f₂.Extends f := d₂.rewires.extends.trans d₁.rewires.extends
  have l₂ : f₂.Loose [m.value] := {
    has   := by simpa using d₂.rewires.has.mpr (detach_eq_ok.mp h₂).left
    free  := by simp [d₂.parent]
    nodup := List.nodup_singleton _ }
  have ⟨d₃, ht⟩ := adds_addMember v₂ l₂ name isStatic
  rw [h₃] at d₃ ht
  simp only at d₃ ht
  replace d₃ := d₃.markMember m.doc (hn ▸ e₂.label hs) (e₂.docs ▸ hd)
  have ht : ((g.copySpan m.statement member).setDoc member m.doc).texts = f₂.texts.push name := by
    simpa using ht
  generalize (g.copySpan m.statement member).setDoc member m.doc = g at d₃ ht
  have has₂ {r : Ref} : f₂.Has r ↔ f.Has r := d₂.rewires.has.trans d₁.rewires.has
  have attached := d₁.parent m.value ▸ d₂.attached
  refine ⟨d₃.valid, d₃.ext.trans e₂, ⟨d₁.attached, ?attached⟩, fun e => attached (if_pos e),
    fun r => (d₃.has r).trans (or_congr_right has₂), fun h => d₃.not_has (has₂.mpr h), d₃.free,
    fun {r} hr => ?old, d₃.children_ref, fun {a x} ha hc => ?contains, d₃.text? rfl rfl ht,
    ⟨n, f₂.texts.size, hn, d₃.label⟩⟩
  case attached =>
    split at attached
    case isTrue => exact absurd rfl attached
    case isFalse => exact attached
  case old => rw [d₃.children_of_has (has₂.mpr hr), d₂.children, d₁.children]
  case contains =>
    rw [d₃.contains_iff v₂ (has₂.mpr ha)] at hc
    exact d₁.contains ha.ne_none (d₂.contains ha.ne_none hc)

namespace Lifts

variable {m : MemberAssignment} {members member : Ref} {name : String} {isStatic : Bool}

theorem exists_appendChild (l : f.Lifts g m member name isStatic) (hm : f.Has members)
    (apart : ¬f.Contains m.value members) : ∃ h, g.appendChild members member = .ok h := by
  have new := (l.has member).mpr (.inl rfl)
  refine Forest.exists_appendChild l.valid (l.ext.has hm) new l.free fun hc => ?_
  have hn : members ≠ member := fun e => l.new (e ▸ hm)
  obtain ⟨c, hc, h⟩ := l.valid.exists_child new.ne_none hc hn
  rw [l.below, List.mem_singleton] at hc
  exact apart (l.contains (has_of_parent_ne_none l.attached.right) (hc ▸ h))

theorem merges (l : f.Lifts g m member name isStatic) (hg : g.appendChild members member = .ok h) :
    f.Merges h m members member name isStatic := by
  have d := appends_of_ok l.valid hg
  have hne : members ≠ member := fun e => d.apart (e ▸ .refl)
  have hm : f.Has members := ((l.has members).mp d.has).resolve_left hne
  obtain ⟨n, data, hn, label⟩ := l.label
  have new := (l.has member).mpr (.inl rfl)
  refine ⟨d.valid l.valid, d.rewires.extends.trans l.ext, l.attached, l.ne, hm, l.new,
    fun hr => (l.has _).mp (d.rewires.has.mp hr), fun r hr hn => ?only, fun {r} hr => ?old, ?below,
    ?text, ⟨n, data, hn, ?label⟩⟩
  case only =>
    refine children_of_not_has fun hg => ?_
    rcases (l.has r).mp (d.rewires.has.mp hg) with h | h
    · exact hn h
    · exact hr h
  case old =>
    rw [d.children]
    split
    case isTrue e => rw [← e, l.old hr]
    case isFalse e => rw [l.old hr, List.append_nil]
  case below => rw [d.children, if_neg (Ne.symm hne), l.below]
  case text => rw [d.rewires.extends.text? l.valid new, l.text]
  case label => rw [d.rewires.label, label]

end Lifts

namespace Merges

variable {m : MemberAssignment} {members member : Ref} {name : String} {isStatic : Bool}

theorem ne_member (e : f.Merges g m members member name isStatic) (hr : f.Has r) : r ≠ member :=
  fun h => e.new (h ▸ hr)

theorem mem_old (e : f.Merges g m members member name isStatic) (v : f.Valid) {c : Ref}
    (hr : f.Has r) : c ∈ g.children r ↔
      c ∈ f.children r ∧ c ≠ m.statement ∧ c ≠ m.value ∨ r = members ∧ c = member := by
  have hn := v.nodup r
  rw [e.old hr, List.mem_append, (hn.erase _).mem_erase_iff, hn.mem_erase_iff]
  by_cases h : r = members
  case pos =>
    simp only [h, if_true, List.mem_singleton]
    tauto
  case neg =>
    simp only [h, if_false, List.not_mem_nil]
    tauto

theorem kind_old (e : f.Merges g m members member name isStatic)
    (hk : g.kind? r = some .classDefinition) : f.kind? r = some .classDefinition := by
  rcases e.nodes (has_of_kind? hk) with rfl | hr
  · obtain ⟨n, data, -, label⟩ := e.label
    simp [kind?_eq_label?, label, memberNode] at hk
  · exact (e.ext.kind? hr).symm.trans hk

theorem parent_member (e : f.Merges g m members member name isStatic) (v : f.Valid) :
    g.parent member = members :=
  e.valid.parent_eq <| (e.mem_old v e.has).mpr <| .inr ⟨rfl, rfl⟩

theorem parent_value (e : f.Merges g m members member name isStatic) : g.parent m.value = member :=
  e.valid.parent_eq <| by simp [e.below]

theorem of_mem_children (e : f.Merges g m members member name isStatic) {c : Ref} (hr : ¬f.Has r)
    (hc : c ∈ g.children r) : r = member ∧ c = m.value := by
  by_cases h : r = member
  case pos =>
    rw [h, e.below, List.mem_singleton] at hc
    exact ⟨h, hc⟩
  case neg => simp [e.only r hr h] at hc

-- Only the statement and its value are moved.
theorem parent_of_ne (e : f.Merges g m members member name isStatic) (v : f.Valid) (hr : f.Has r)
    (hs : r ≠ m.statement) (hv : r ≠ m.value) : g.parent r = f.parent r := by
  by_cases hnone : f.parent r = none
  case neg =>
    exact e.valid.parent_eq <|
      (e.mem_old v (v.has_parent hnone)).mpr <| .inl ⟨v.mem_parent hnone, hs, hv⟩
  case pos =>
    rw [hnone]
    by_contra h
    have hm := e.valid.mem_parent h
    by_cases hq : f.Has (g.parent r)
    case neg => exact hv (e.of_mem_children hq hm).right
    case pos =>
      rcases (e.mem_old v hq).mp hm with ⟨hm, -, -⟩ | ⟨-, hm⟩
      · have ⟨e', hne⟩ := v.mem_children.mp hm
        exact hne (e'.symm.trans hnone)
      · exact e.ne_member hr hm

theorem parent_statement (e : f.Merges g m members member name isStatic) (v : f.Valid) :
    g.parent m.statement = none := by
  by_contra h
  have hm := e.valid.mem_parent h
  by_cases hq : f.Has (g.parent m.statement)
  case neg => exact e.ne (e.of_mem_children hq hm).right.symm
  case pos =>
    rcases (e.mem_old v hq).mp hm with ⟨-, hs, -⟩ | ⟨-, hm⟩
    · exact hs rfl
    · exact e.ne_member (has_of_parent_ne_none e.attached.left) hm

end Merges

end Forest

-- The class that a member belongs to, and when it can be moved there.
structure MemberAssignment.Joins (m : MemberAssignment) (w : Workspace) (options : Options) (cls : Ref)
    (className name : String) : Prop where
  allowed    : m.isStatic w.forest → options.mergeStaticMethods
  ofClass    : m.className? w.forest = .ok (some className)
  registered : w.registry.lookup? className = some cls
  named      : m.memberName? w.forest = some name
  apart      : w.forest.isWithin cls m.value = false

-- There is one class at most that a member joins.
theorem MemberAssignment.Joins.unique {m : MemberAssignment} {w : Workspace} {options : Options}
    {cls cls' : Ref} {className className' name name' : String} (j : m.Joins w options cls className name)
    (j' : m.Joins w options cls' className' name') : cls = cls' := by
  cases j.ofClass.symm.trans j'.ofClass
  exact Option.some.inj (j.registered.symm.trans j'.registered)

theorem MemberAssignment.Joins.not_contains {m : MemberAssignment} {w : Workspace} {options : Options}
    {cls : Ref} {className name : String} (j : m.Joins w options cls className name)
    (v : w.forest.Valid) (hv : m.value ≠ none) : ¬w.forest.Contains m.value cls := by
  rw [← v.isWithin_iff hv, j.apart]
  simp

-- What is found if the class in the target is not among those that are known. Nothing is found for a
-- static member.
def MemberAssignment.unknown? (m : MemberAssignment) (f : Forest) (options : Options)
    (isKnown : String → Bool) : Option Finding :=
  match m.className? f with
  | .ok (some className) =>
    if !m.isStatic f && options.reportUnknownClasses && !isKnown className then
      some (.at f .unknownClass m.target className)
    else
      none
  | _ => none

namespace Workspace

variable {w w' : Workspace}

@[simp]
theorem forest_countMerge : w.countMerge.forest = w.forest := rfl

-- The ways a merge ends without an error.
inductive MergeOk (w : Workspace) (options : Options) (m : MemberAssignment) :
    Option Ref → Workspace → Prop
  | stays (out : ∀ cls className name, ¬m.Joins w options cls className name)
    (silent : m.unknown? w.forest options w.registry.contains = none) :
    MergeOk w options m none w
  | unknown {className : String} (out : ∀ cls className name, ¬m.Joins w options cls className name)
    (ofClass : m.className? w.forest = .ok (some className))
    (unknown : w.registry.lookup? className = none)
    (reported : m.isStatic w.forest = false ∧ options.reportUnknownClasses) :
    MergeOk w options m none (w.report .unknownClass m.target className)
  | joins {cls member : Ref} {className name : String} {g : Forest}
    (joins : m.Joins w options cls className name)
    (kind : w.forest.kind? (w.forest.members cls) = some .classMembers)
    (merges : w.forest.Merges g m (w.forest.members cls) member name (m.isStatic w.forest)) :
    MergeOk w options m (some member) ({ w with forest := g }.countMerge)

theorem moveInto_ok (v : w.forest.Valid) {members member : Ref} {m : MemberAssignment} {name : String}
    {isStatic : Bool} (hd : ∀ {i}, m.doc = some i → i < w.forest.docs.size)
    (h : w.moveInto members m name isStatic = (.ok member, w')) :
    ∃ g, w.forest.Merges g m members member name isStatic ∧ w' = { w with forest := g }.countMerge := by
  unfold moveInto at h
  split at h
  case h_1 => cases h
  case h_2 f₁ h₁ =>
    split at h
    case h_1 => cases h
    case h_2 f₂ h₂ =>
      rcases h₃ : f₂.addMember name isStatic m.value with ⟨f₃, member'⟩
      simp only [h₃] at h
      split at h
      case h_1 => cases h
      case h_2 g h₄ =>
        cases h
        exact ⟨g, (Forest.lifts_of_detach v hd h₁ h₂ h₃).merges h₄, rfl⟩

theorem merge_ok (v : w.forest.Valid) {options : Options} {m : MemberAssignment} {result : Option Ref}
    (hd : ∀ {i}, m.doc = some i → i < w.forest.docs.size)
    (h : w.merge options m = (.ok result, w')) : w.MergeOk options m result w' := by
  unfold merge at h
  simp only at h
  split at h
  case isTrue hs =>
    cases h
    simp only [Bool.and_eq_true, Bool.not_eq_true'] at hs
    refine .stays (fun _ _ _ j => ?_) ?_
    · simp [j.allowed hs.left] at hs
    · unfold MemberAssignment.unknown?
      split <;> simp [hs.left]
  case isFalse hs =>
    have allowed : m.isStatic w.forest → options.mergeStaticMethods := by simpa using hs
    split at h
    case h_1 => cases h
    case h_2 ofClass =>
      cases h
      refine .stays (fun _ _ _ j => ?_) (by simp [MemberAssignment.unknown?, ofClass])
      cases ofClass.symm.trans j.ofClass
    case h_3 className ofClass =>
      split at h
      case h_1 unknown =>
        have out cls name' name : ¬m.Joins w options cls name' name := fun j => by
          cases ofClass.symm.trans j.ofClass
          cases unknown.symm.trans j.registered
        split at h
        case isTrue reported =>
          cases h
          exact .unknown out ofClass unknown (by simpa using reported)
        case isFalse silent =>
          cases h
          exact .stays out (by simp_all [MemberAssignment.unknown?])
      case h_2 cls registered =>
        have silent : m.unknown? w.forest options w.registry.contains = none := by
          simp [MemberAssignment.unknown?, ofClass, Registry.contains, registered]
        split at h
        case h_1 unnamed =>
          cases h
          refine .stays (fun _ _ _ j => ?_) silent
          cases unnamed.symm.trans j.named
        case h_2 name named =>
          split at h
          case isTrue within =>
            cases h
            refine .stays (fun _ _ _ j => ?_) silent
            cases ofClass.symm.trans j.ofClass
            cases registered.symm.trans j.registered
            cases within.symm.trans j.apart
          case isFalse apart =>
            split at h
            case h_1 => cases h
            case h_2 kind =>
              rcases ha : w.moveInto (w.forest.members cls) m name (m.isStatic w.forest)
                with ⟨out, w₁⟩
              simp only [ha, Prod.mk.injEq] at h
              obtain ⟨h, rfl⟩ := h
              cases out
              case error => cases h
              case ok member =>
                cases h
                obtain ⟨g, merges, rfl⟩ := moveInto_ok v hd ha
                have joins : m.Joins w options cls className name :=
                  ⟨allowed, ofClass, registered, named, by simpa using apart⟩
                exact .joins joins (Forest.expectKind_eq_ok.mp kind) merges

-- A method that joins a class is moved into its list.
theorem merge_of_joins {options : Options} {m : MemberAssignment} {cls : Ref} {className name : String}
    (j : m.Joins w options cls className name)
    (list : w.forest.kind? (w.forest.members cls) = some .classMembers) :
    let moved := w.moveInto (w.forest.members cls) m name (m.isStatic w.forest)
    w.merge options m = (moved.1.map some, moved.2) := by
  have allowed : ¬(m.isStatic w.forest && !options.mergeStaticMethods) := by simpa using j.allowed
  have list := Forest.expectKind_eq_ok (u := ()) |>.mpr list
  unfold merge
  simp only [if_neg allowed, j.ofClass, j.registered, j.named, j.apart, list]
  rfl

end Workspace

end ClassLift
