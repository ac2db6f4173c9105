import ClassLift.Proofs.Convert.Names

/-!
The methods that are assigned on a script. What is seen at a statement, and what is found if its class
is missing, are the same in the original forest as long as the statement is not merged.
-/

namespace ClassLift

open Forest

variable {f g : Forest} {done : List Ref} {log log' : Log} {w : Workspace} {r : Ref}
variable {m : MemberAssignment} {options : Options} {isKnown isKnown' : String → Bool}

-- A statement on a script that assigns a function, and the function has not become a class.
structure MemberAssignment.IsMethodAt (m : MemberAssignment) (f : Forest) (log : Log) (r : Ref) : Prop where
  of       : m.statement = r
  view     : m.IsView f
  onScript : f.kind? (f.parent r) = some .script
  value    : f.kind? m.value = some .function
  kept     : log.cls? m.value = none

-- A method that may be merged into a class of this name.
structure MemberAssignment.IsCandidate (m : MemberAssignment) (f : Forest) (options : Options) (log : Log)
    (r : Ref) (className : String) : Prop where
  method  : m.IsMethodAt f log r
  allowed : m.isStatic f → options.mergeStaticMethods
  ofClass : m.className? f = .ok (some className)
  named   : ∃ name, m.memberName? f = some name

namespace Forest

def methodAt? (f : Forest) (log : Log) (r : Ref) : Option MemberAssignment :=
  (MemberAssignment.ofStatement? f r).filter fun m =>
    f.isKind (f.parent r) .script && m.isMethod f && (log.cls? m.value).isNone

theorem methodAt?_eq_some : f.methodAt? log r = some m ↔ m.IsMethodAt f log r := by
  simp only [methodAt?, Option.filter_eq_some_iff, MemberAssignment.ofStatement?_eq_some,
    MemberAssignment.isMethod, Bool.and_eq_true, isKind_iff, Option.isNone_iff_eq_none]
  constructor
  case mp => exact fun ⟨⟨of, view⟩, ⟨onScript, value⟩, kept⟩ => ⟨of, view, onScript, value, kept⟩
  case mpr => exact fun h => ⟨⟨h.of, h.view⟩, ⟨h.onScript, h.value⟩, h.kept⟩

theorem methodAt?_of_kind (hk : f.kind? r ≠ some .expressionStatement) : f.methodAt? log r = none := by
  refine Option.eq_none_iff_forall_ne_some.mpr fun m hm => hk ?_
  have i := methodAt?_eq_some.mp hm
  exact i.of ▸ i.view.statement

theorem enclosingScript_eq (v : f.Valid) (r : Ref) : f.enclosingScript r =
    if f.isKind r .script then r else f.enclosingScript (f.parent r) := by
  cases r
  case none => rfl
  case some i =>
    have up : f.lineageWithin f.size (f.parent (some i)) = f.lineage (f.parent (some i)) := by
      have top : f.climb f.size (f.parent (some i)) = none := v.climb_succ_size (some i)
      rw [lineage, lineageWithin_of_climb top (Nat.le_succ _)]
    rw [enclosingScript, lineage, lineageWithin, up, List.find?_cons]
    cases f.isKind (some i) .script <;> rfl

end Forest

namespace MemberAssignment

theorem IsCandidate.congr {className : String} (i : m.IsCandidate f options log r className)
    (h : log'.cls? m.value = log.cls? m.value) : m.IsCandidate f options log' r className :=
  { i with method := { i.method with kept := h.trans i.method.kept } }

theorem IsMethodAt.enclosingScript_target (i : m.IsMethodAt f log r) (v : f.Valid) :
    f.enclosingScript m.target = f.parent r := by
  have step {x : Ref} {k : Kind} (hk : f.kind? x = some k) (hn : k ≠ .script) :
      f.enclosingScript x = f.enclosingScript (f.parent x) := by
    rw [enclosingScript_eq v, if_neg (by simp [isKind_iff, hk, hn])]
  rw [step i.view.target.right (by simp), v.parent_eq i.view.target_mem,
    step i.view.assignment.right (by simp), v.parent_eq i.view.assignment_mem,
    step i.view.statement (by simp), i.of, enclosingScript_eq v, if_pos (isKind_iff.mpr i.onScript)]

theorem unknown?_congr
    (h : ∀ className, m.className? f = .ok (some className) → isKnown className = isKnown' className) :
    m.unknown? f options isKnown = m.unknown? f options isKnown' := by
  unfold unknown?
  split
  case h_1 className ofClass => rw [h className ofClass]
  case h_2 => rfl

-- What is on the script is one of its children.
theorem IsMethodAt.mem_children {script : Ref} (i : m.IsMethodAt f log r) (v : f.Valid)
    (s : f.Shaped script) (hs : f.kind? script = some .script) (hc : f.Contains script r) :
    r ∈ f.children script :=
  s.mem_children_script v hs hc (by simp [← i.of, i.view.statement]) i.onScript

-- Nothing is found for a class that is known, too, if others are.
theorem unknown?_mono (h : ∀ className, isKnown className → isKnown' className)
    (hu : m.unknown? f options isKnown = none) : m.unknown? f options isKnown' = none := by
  unfold unknown? at hu ⊢
  split <;> simp_all

end MemberAssignment

namespace Progress

theorem isMethodAt_iff (p : Progress f done log w) (v : f.Valid) (hf : f.Has r)
    (hr : r ∉ log.statements) (hp : w.forest.parent r = f.parent r) :
    m.IsMethodAt w.forest [] r ↔ m.IsMethodAt f log r := by
  constructor
  case mp =>
    rintro ⟨rfl, view, onScript, value, -⟩
    have ⟨view, value, kept⟩ := p.isView_original v hf hr view (isKind_iff.mpr value)
    rw [hp] at onScript
    have above := v.has_parent (hp ▸ (has_of_kind? (hp ▸ onScript)).ne_none)
    exact ⟨rfl, view, p.kind?_eq above onScript, value, kept⟩
  case mpr =>
    rintro ⟨rfl, view, onScript, value, kept⟩
    have function := (p.ext.kind? (has_of_kind? value)).trans value
    refine ⟨rfl, p.isView_kept v view hr value kept, ?_, function, rfl⟩
    rw [hp, p.ext.kind? (has_of_kind? onScript), onScript]

theorem methodAt?_eq (p : Progress f done log w) (v : f.Valid) (hf : f.Has r)
    (hr : r ∉ log.statements) (hp : w.forest.parent r = f.parent r) :
    w.forest.methodAt? [] r = f.methodAt? log r := by
  refine Option.ext fun m => ?_
  rw [methodAt?_eq_some, methodAt?_eq_some, p.isMethodAt_iff v hf hr hp]

theorem unknown?_eq (p : Progress f done log w) (v : f.Valid) (i : m.IsMethodAt f log r)
    (i' : m.IsMethodAt w.forest [] r) (hp : w.forest.parent r = f.parent r) :
    m.unknown? w.forest options isKnown = m.unknown? f options isKnown := by
  have target := i.view.target.right
  have finding := p.ext.finding_eq v (has_of_kind? target)
    ((i'.enclosingScript_target p.valid).trans (hp.trans (i.enclosingScript_target v).symm))
  simp only [MemberAssignment.unknown?, p.className?_eq v target, p.isStatic_eq v target, finding]

end Progress

end ClassLift
