import ClassLift.Proofs.Tree.Fields
import ClassLift.Tree.Check
import Mathlib.Data.List.Nodup

/-!
Which nodes lie below which. The parent links of a forest give every node one chain upwards, and a
node contains another if it is on the chain of the other.
-/

namespace ClassLift.Forest

-- The parent links lead from `r` up to `a`.
inductive Contains (f : Forest) (a : Ref) : Ref → Prop
  | refl : Contains f a a
  | up : Contains f a (f.parent r) → Contains f a r

-- The chain upwards from a node has an end.
def Rooted (f : Forest) (r : Ref) : Prop :=
  f.Contains none r

-- Follows so many parent links.
def climb (f : Forest) : Nat → Ref → Ref
  | _, none => none
  | 0, r => r
  | n + 1, r => f.climb n (f.parent r)

variable {f g : Forest} {a b r p : Ref}

namespace Contains

theorem trans (h₁ : f.Contains a b) (h₂ : f.Contains b r) : f.Contains a r := by
  induction h₂
  case refl => exact h₁
  case up ih => exact .up ih

theorem cases_up (h : f.Contains a r) : r = a ∨ f.Contains a (f.parent r) := by
  cases h
  case refl => exact .inl rfl
  case up h => exact .inr h

theorem parent_of_ne (h : f.Contains a r) (hn : r ≠ a) : f.Contains a (f.parent r) :=
  h.cases_up.resolve_left hn

theorem eq_none (h : f.Contains a none) : a = none := by
  generalize hr : (none : Ref) = r at h
  induction h
  case refl => rfl
  case up ih => rw [ih (by rw [← hr, parent_none]), ← hr, parent_none]

theorem ne_none (h : f.Contains a r) (ha : a ≠ none) : r ≠ none := by
  rintro rfl
  exact ha h.eq_none

theorem has (h : f.Contains a r) (ha : f.Has a) : f.Has r := by
  cases h
  case refl => exact ha
  case up h => exact has_of_parent_ne_none <| h.ne_none ha.ne_none

-- The chain upwards from a node does not branch.
theorem linear (h₁ : f.Contains a r) (h₂ : f.Contains b r) : f.Contains a b ∨ f.Contains b a := by
  induction h₁
  case refl => exact .inr h₂
  case up h ih =>
    cases h₂
    case refl => exact .inl (.up h)
    case up h₂ => exact ih h₂

theorem child (h : f.Contains a p) (hp : f.parent r = p) : f.Contains a r :=
  .up (hp ▸ h)

end Contains

theorem contains_iff : f.Contains a r ↔ r = a ∨ f.Contains a (f.parent r) where
  mp h := h.cases_up
  mpr := by
    rintro (rfl | h)
    · exact .refl
    · exact .up h

theorem contains_iff_of_ne (h : r ≠ a) : f.Contains a r ↔ f.Contains a (f.parent r) := by
  rw [contains_iff, or_iff_right h]

theorem contains_parent (f : Forest) (r : Ref) : f.Contains (f.parent r) r :=
  .up .refl

-- Only the links on the way up to `a` matter.
theorem Contains.congr (h : f.Contains a r)
    (hp : ∀ x, f.Contains x r → f.Contains a x → x ≠ a → g.parent x = f.parent x) :
    g.Contains a r := by
  induction h
  case refl => exact .refl
  case up r h ih =>
    by_cases hr : r = a
    case pos => exact hr ▸ .refl
    case neg =>
      apply Contains.up
      rw [hp r .refl (.up h) hr]
      exact ih fun x hx => hp x hx.up

-- Two forests with the same links on the chain of a node agree about what contains it.
theorem contains_congr (hp : ∀ x, f.Contains x r → x ≠ a → g.parent x = f.parent x) :
    g.Contains a r ↔ f.Contains a r := by
  constructor <;> intro h
  case mpr => exact h.congr fun x hx _ => hp x hx
  case mp =>
    induction h
    case refl => exact .refl
    case up r h ih =>
      by_cases hr : r = a
      case pos => exact hr ▸ .refl
      case neg =>
        have hg := hp r .refl hr
        rw [hg] at ih
        exact .up <| ih fun x hx => hp x hx.up

theorem rooted_none : f.Rooted none :=
  .refl

namespace Rooted

theorem parent (h : f.Rooted r) : f.Rooted (f.parent r) := by
  cases h
  case refl => exact .refl
  case up h => exact h

theorem above (h : f.Rooted r) (hc : f.Contains a r) : f.Rooted a := by
  induction hc
  case refl  => exact h
  case up ih => exact ih h.parent

-- Induction from the root of a tree down to a node.
theorem downward {motive : (r : Ref) → f.Rooted r → Prop} (top : motive none rooted_none)
    (below : ∀ r (h : f.Rooted r), r ≠ none → motive (f.parent r) h.parent → motive r h)
    (h : f.Rooted r) : motive r h := by
  induction h
  case refl => exact top
  case up r h ih =>
    cases r
    case none => exact top
    case some i => exact below _ _ (by simp) ih

-- No node lies above itself.
theorem not_contains_parent (h : f.Rooted r) (hr : r ≠ none) : ¬f.Contains r (f.parent r) := by
  induction h using downward
  case top => exact absurd rfl hr
  case below r h _ ih =>
    intro hc
    have hp := hc.ne_none hr
    -- Otherwise the parent would lie above itself too.
    apply ih hp
    by_cases he : f.parent r = r
    case pos => exact he.symm ▸ hc
    case neg => exact (contains_parent f r).trans (hc.parent_of_ne he)

theorem antisymm (h : f.Rooted r) (hr : r ≠ none) (h₁ : f.Contains a r) (h₂ : f.Contains r a) :
    a = r := by
  by_contra hn
  exact h.not_contains_parent hr <| h₂.trans <| h₁.parent_of_ne (Ne.symm hn)

end Rooted

/- The chains as lists -/

@[simp]
theorem lineageWithin_zero : f.lineageWithin 0 r = [] := by
  cases r <;> rfl

theorem mem_lineageWithin {i : NodeId} {n : Nat} (h : i ∈ f.lineageWithin n r) :
    f.Contains (some i) r := by
  induction n generalizing r
  case zero => simp at h
  case succ n ih =>
    cases r
    case none => simp [lineageWithin] at h
    case some j =>
      simp only [lineageWithin, List.mem_cons] at h
      cases h
      case inl h => exact h ▸ .refl
      case inr h => exact .up (ih h)

theorem nodup_lineageWithin {n : Nat} (h : f.Rooted r) : (f.lineageWithin n r).Nodup := by
  induction n generalizing r
  case zero => simp
  case succ n ih =>
    cases r
    case none => simp [lineageWithin]
    case some i =>
      rw [lineageWithin, List.nodup_cons]
      exact ⟨fun hi => h.not_contains_parent (by simp) (mem_lineageWithin hi), ih h.parent⟩

theorem climb_none {n : Nat} : f.climb n none = none := by
  cases n <;> rfl

@[simp]
theorem climb_zero : f.climb 0 r = r := by
  cases r <;> rfl

theorem climb_succ (n : Nat) (r : Ref) : f.climb (n + 1) r = f.parent (f.climb n r) := by
  induction n generalizing r
  case zero => cases r <;> simp [climb]
  case succ n ih =>
    cases r
    case none => rfl
    case some i => exact ih (f.parent (some i))

theorem climb_of_le {m n : Nat} (h : f.climb m r = none) (hmn : m ≤ n) : f.climb n r = none := by
  induction hmn
  case refl => exact h
  case step ih => rw [climb_succ, ih, parent_none]

theorem contains_climb (n : Nat) (r : Ref) : f.Contains (f.climb n r) r := by
  induction n
  case zero => exact climb_zero ▸ .refl
  case succ n ih => exact climb_succ n r ▸ (contains_parent f _).trans ih

theorem length_lineageWithin {n : Nat} (h : f.climb n r ≠ none) :
    (f.lineageWithin (n + 1) r).length = n + 1 := by
  induction n generalizing r
  case zero =>
    cases r
    case none => simp [climb] at h
    case some i => simp [lineageWithin]
  case succ n ih =>
    cases r
    case none => simp [climb_none] at h
    case some i => simpa [lineageWithin] using ih h

-- A list that is long enough has the whole chain.
theorem mem_lineageWithin_of_contains {i : NodeId} {n : Nat} (hn : f.climb n r = none)
    (h : f.Contains (some i) r) : i ∈ f.lineageWithin n r := by
  induction n generalizing r
  case zero =>
    cases r
    case none => simpa using h.eq_none
    case some j => simp [climb] at hn
  case succ n ih =>
    cases r
    case none => simpa using h.eq_none
    case some j =>
      rw [lineageWithin, List.mem_cons]
      rcases h.cases_up with h | h
      · simp_all
      · exact .inr (ih hn h)

theorem rooted_of_climb {n : Nat} (h : f.climb n r = none) : f.Rooted r := by
  induction n generalizing r
  case zero =>
    cases r
    case none => exact .refl
    case some i => simp [climb] at h
  case succ n ih =>
    cases r
    case none => exact .refl
    case some i => exact .up (ih h)

end ClassLift.Forest
