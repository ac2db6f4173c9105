import ClassLift.Convert.Pass
import Mathlib.Data.List.Basic

/-!
What the changes of a run say about the original nodes: which functions have become classes, and
which nodes a merge has taken out of their place.
-/

namespace ClassLift

namespace Change

-- The node that a change is made at.
def site : Change → Ref
  | promotion function _ => function
  | merge m _ => m.statement

def cls? : Change → Ref → Option Ref
  | .promotion function cls, r => if function = r then some cls else none
  | .merge .., _ => none

def taken : Change → List Ref
  | .promotion .. => []
  | .merge m _ => [m.statement, m.value]

def member? : Change → Option Ref
  | .promotion .. => none
  | .merge _ member => some member

def statement? : Change → Option Ref
  | .promotion .. => none
  | .merge m _ => some m.statement

end Change

-- Whether a class is the one in the target.
def MemberAssignment.isOf (m : MemberAssignment) (f : Forest) (className : String) : Bool :=
  match m.className? f with
  | .ok (some name) => name == className
  | _ => false

def Change.memberOf? (f : Forest) (className : String) : Change → Option Ref
  | .promotion .. => none
  | .merge m member => if m.isOf f className then some member else none

-- In the order in which they were made.
abbrev Log := List Change

theorem MemberAssignment.isOf_iff {m : MemberAssignment} {f : Forest} {className : String} :
    m.isOf f className ↔ m.className? f = .ok (some className) := by
  unfold isOf
  split <;> simp_all

namespace Log

variable {log : Log} {c : Change} {r cls : Ref}

-- The class that a function has become.
def cls? (log : Log) (r : Ref) : Option Ref :=
  log.findSome? (·.cls? r)

-- What stands in the place of a node.
def image (log : Log) (r : Ref) : Ref :=
  (log.cls? r).getD r

def taken (log : Log) : List Ref :=
  log.flatMap Change.taken

def members (log : Log) : List Ref :=
  log.filterMap Change.member?

-- The statements that have been merged.
def statements (log : Log) : List Ref :=
  log.filterMap Change.statement?

-- The members of one class.
def membersOf (log : Log) (f : Forest) (className : String) : List Ref :=
  log.filterMap (Change.memberOf? f className)

-- What a node of `f` has below it after the changes: what it had, as far as that was not taken, and
-- then the members that are in `g`.
def contents (log : Log) (f g : Forest) (r : Ref) : List Ref :=
  if (log.cls? r).isSome then []
  else ((f.children r).filter (· ∉ log.taken)).map log.image ++ log.members.filter (g.parent · = r)

theorem promotion_mem (h : log.cls? r = some cls) : .promotion r cls ∈ log := by
  obtain ⟨c, hc, h⟩ := List.exists_of_findSome?_eq_some h
  cases c
  case promotion function cls' =>
    simp only [Change.cls?, Option.ite_none_right_eq_some, Option.some.injEq] at h
    obtain ⟨rfl, rfl⟩ := h
    exact hc
  case merge => cases h

theorem cls?_isSome (h : .promotion r cls ∈ log) : (log.cls? r).isSome :=
  List.findSome?_isSome_iff.mpr ⟨_, h, by simp [Change.cls?]⟩

theorem cls?_eq_none : log.cls? r = none ↔ ¬∃ cls, .promotion r cls ∈ log := by
  constructor
  · rintro h ⟨cls, hc⟩
    simpa [h] using cls?_isSome hc
  · intro h
    cases hc : log.cls? r
    case none => rfl
    case some cls => exact absurd ⟨cls, promotion_mem hc⟩ h

-- What no promotion does is done by a merge.
theorem exists_merge {P : Change → Prop} (h : ∀ r cls, ¬P (.promotion r cls)) :
    (∃ c ∈ log, P c) ↔ ∃ m member, .merge m member ∈ log ∧ P (.merge m member) := by
  constructor
  · rintro ⟨c, hc, hp⟩
    cases c
    case promotion => exact absurd hp (h _ _)
    case merge m member => exact ⟨m, member, hc, hp⟩
  · rintro ⟨m, member, hc, hp⟩
    exact ⟨_, hc, hp⟩

theorem mem_taken : r ∈ log.taken ↔
    ∃ m member, .merge m member ∈ log ∧ (r = m.statement ∨ r = m.value) := by
  rw [taken, List.mem_flatMap, exists_merge (by simp [Change.taken])]
  simp [Change.taken]

theorem mem_members : r ∈ log.members ↔ ∃ m, .merge m r ∈ log := by
  rw [members, List.mem_filterMap, exists_merge (by simp [Change.member?])]
  simp [Change.member?]

theorem mem_statements : r ∈ log.statements ↔
    ∃ m member, .merge m member ∈ log ∧ m.statement = r := by
  rw [statements, List.mem_filterMap, exists_merge (by simp [Change.statement?])]
  simp [Change.statement?]

theorem image_of_none (h : log.cls? r = none) : log.image r = r := by
  simp [image, h]

theorem image_of_some (h : log.cls? r = some cls) : log.image r = cls := by
  simp [image, h]

theorem cls?_append {log' : Log} : cls? (log ++ log') r = (log.cls? r).or (log'.cls? r) :=
  List.findSome?_append

theorem cls?_concat : cls? (log ++ [c]) r = (log.cls? r).or (c.cls? r) := by
  have last : cls? [c] r = c.cls? r := by
    cases h : c.cls? r <;> simp [cls?, h]
  rw [cls?_append, last]

theorem taken_concat : taken (log ++ [c]) = log.taken ++ c.taken := by
  simp [taken]

theorem members_concat : members (log ++ [c]) = log.members ++ c.member?.toList := by
  simp only [members, List.filterMap_append]
  cases h : c.member? <;> simp [h]

theorem image_promotion {function : Ref} (hu : log.cls? function = none) :
    image (log ++ [.promotion function cls]) r =
      if r = function then cls else log.image r := by
  unfold image
  rw [cls?_concat, Change.cls?]
  by_cases h : r = function
  case pos =>
    subst h
    simp [hu]
  case neg => simp [h, Ne.symm h]

theorem image_merge {m : MemberAssignment} {member : Ref} :
    image (log ++ [.merge m member]) = log.image :=
  funext fun r => by rw [image, cls?_concat, Change.cls?, Option.or_none, image]

end Log

end ClassLift
