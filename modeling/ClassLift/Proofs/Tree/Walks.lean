import ClassLift.Proofs.Tree.Mirror
import Mathlib.Logic.Function.Iterate

/-!
Walks over a forest as loops that count nothing: they follow links until they have found what they look
for. In a circle of links they would go on for ever. In a valid forest all of them come to an end, with
what the bounded walks give.
-/

namespace ClassLift

-- A loop comes to an end. Each of its turns gives the next state or the result.
inductive Halts {σ α : Type} (turn : σ → σ ⊕ α) : σ → α → Prop
  | stop {s : σ} {a : α} : turn s = .inr a → Halts turn s a
  | next {s s' : σ} {a : α} : turn s = .inl s' → Halts turn s' a → Halts turn s a

-- A loop that does what another one does, on states that stand for those of the other.
theorem Halts.embed {σ τ α β : Type} {turn : σ → σ ⊕ α} {turn' : τ → τ ⊕ β} {s : σ} {a : α}
    (h : Halts turn s a) (state : σ → τ) (result : α → β)
    (same : ∀ s, turn' (state s) = (turn s).map state result) : Halts turn' (state s) (result a) := by
  induction h
  case stop h      => exact .stop (by rw [same, h, Sum.map_inr])
  case next h _ ih => exact .next (by rw [same, h, Sum.map_inl]) ih

namespace Forest

variable {f : Forest} {a b r : Ref} {n depth : Nat}

/- Upwards -/

def withinTurn (f : Forest) (ancestor : Ref) : Ref → Ref ⊕ Bool
  | none => .inr false
  | some i => if some i = ancestor then .inr true else .inl (f.parent (some i))

def scriptTurn (f : Forest) (r : Ref) : Ref ⊕ Ref :=
  match f.node? r with
  | none => .inr none
  | some n => if n.kind = .script then .inr r else .inl n.parent

theorem halts_withinTurn (h : f.climb n r = none) :
    Halts (f.withinTurn a) r ((f.lineageWithin n r).any (some · == a)) := by
  induction n generalizing r
  case zero =>
    obtain rfl : r = none := by simpa using h
    exact .stop rfl
  case succ n ih =>
    cases r
    case none => exact .stop rfl
    case some i =>
      by_cases found : some i = a
      case pos => exact .stop (by simp [withinTurn, found, lineageWithin])
      case neg =>
        rw [lineageWithin, List.any_cons, beq_false_of_ne found, Bool.false_or]
        exact .next (if_neg found) (ih h)

theorem halts_scriptTurn (h : f.climb n r = none) :
    Halts f.scriptTurn r ((f.lineageWithin n r).find? fun i => f.isKind (some i) .script) := by
  induction n generalizing r
  case zero =>
    obtain rfl : r = none := by simpa using h
    exact .stop rfl
  case succ n ih =>
    cases r
    case none => exact .stop rfl
    case some i =>
      cases hn : f.node? (some i)
      case none =>
        have top : f.parent (some i) = none := by simp [parent, hn]
        have other : f.isKind (some i) .script = false := by simp [isKind, kind?, hn]
        refine .stop ?_
        rw [scriptTurn, hn, lineageWithin, top, List.find?_cons, other]
        cases n <;> rfl
      case some m =>
        have up : f.parent (some i) = m.parent := by simp [parent, hn]
        have kind : f.isKind (some i) .script = (m.kind == .script) := by
          simp [isKind, kind?, hn]
        rw [lineageWithin, List.find?_cons, kind]
        by_cases found : m.kind = .script
        case pos => exact .stop (by simp [scriptTurn, hn, found])
        case neg =>
          rw [beq_false_of_ne found]
          exact .next (by rw [scriptTurn, hn, up]; exact if_neg found) (ih h)

-- A walk to the top ends exactly if the chain of parents does.
theorem halts_withinTurn_iff : (∃ b, Halts (f.withinTurn none) r b) ↔ f.Rooted r := by
  constructor
  case mp =>
    rintro ⟨b, h⟩
    induction h
    case stop s b h =>
      cases s
      case none   => exact .refl
      case some i => cases h
    case next s s' b h _ ih =>
      cases s
      case none   => exact .refl
      case some i =>
        obtain rfl : f.parent (some i) = s' := Sum.inl.inj h
        exact .up ih
  case mpr =>
    intro h
    induction h
    case refl => exact ⟨false, .stop rfl⟩
    case up r _ ih =>
      cases r
      case none => exact ⟨false, .stop rfl⟩
      case some i =>
        obtain ⟨b, h⟩ := ih
        exact ⟨b, .next rfl h⟩

theorem contains_iff_iterate : f.Contains b a ↔ ∃ n, f.parent^[n] a = b := by
  constructor
  case mp =>
    intro h
    induction h
    case refl => exact ⟨0, rfl⟩
    case up ih =>
      obtain ⟨n, h⟩ := ih
      exact ⟨n + 1, h⟩
  case mpr =>
    rintro ⟨n, h⟩
    induction n generalizing a
    case zero      => exact h ▸ .refl
    case succ n ih => exact .up (ih h)

theorem Valid.isWithin_iff_reached (v : f.Valid) (ha : a ≠ none) :
    f.isWithin a b ↔ b = a ∨ f.Has b ∧ ∃ n, f.parent^[n] a = b := by
  rw [← contains_iff_iterate]
  by_cases hb : b = none
  case pos => simp [hb, isWithin, ha.symm, Has]
  case neg =>
    rw [v.isWithin_iff hb]
    constructor
    case mp =>
      intro h
      by_cases same : a = b
      case pos => exact .inl same.symm
      case neg =>
        have up := h.parent_of_ne same
        exact .inr ⟨v.has_above up (v.has_parent (up.ne_none hb)) hb, h⟩
    case mpr =>
      rintro (rfl | ⟨-, h⟩)
      · exact .refl
      · exact h

-- The first script that is met, if there is one.
def IsNearestScript (f : Forest) (a s : Ref) : Prop :=
  (∃ n, f.parent^[n] a = s ∧ f.kind? s = some .script ∧
    ∀ k < n, f.kind? (f.parent^[k] a) ≠ some .script) ∨
  s = none ∧ ∀ n, f.kind? (f.parent^[n] a) ≠ some .script

theorem isNearestScript_none : f.IsNearestScript none none := by
  refine .inr ⟨rfl, fun n => ?_⟩
  rw [Function.iterate_fixed (parent_none f)]
  nofun

theorem IsNearestScript.up {s : Ref} (other : f.kind? a ≠ some .script)
    (h : f.IsNearestScript (f.parent a) s) : f.IsNearestScript a s := by
  obtain ⟨n, reached, script, before⟩ | ⟨rfl, never⟩ := h
  case inl =>
    refine .inl ⟨n + 1, reached, script, fun k hk => ?_⟩
    cases k
    case zero   => exact other
    case succ k => exact before k (Nat.lt_of_succ_lt_succ hk)
  case inr =>
    refine .inr ⟨rfl, fun n => ?_⟩
    cases n
    case zero   => exact other
    case succ n => exact never n

theorem isNearestScript_find? (h : f.climb n r = none) :
    f.IsNearestScript r ((f.lineageWithin n r).find? fun i => f.isKind (some i) .script) := by
  induction n generalizing r
  case zero =>
    obtain rfl : r = none := by simpa using h
    exact isNearestScript_none
  case succ n ih =>
    cases r
    case none => exact isNearestScript_none
    case some i =>
      rw [lineageWithin]
      cases script : f.isKind (some i) .script
      case true =>
        rw [List.find?_cons_of_pos (by simp [script])]
        exact .inl ⟨0, rfl, isKind_iff.mp script, fun m hm => absurd hm (Nat.not_lt_zero m)⟩
      case false =>
        rw [List.find?_cons_of_neg (by simp [script])]
        exact .up (isKind_iff.not.mp (by simp [script])) (ih h)

theorem Valid.isNearestScript (v : f.Valid) (a : Ref) : f.IsNearestScript a (f.enclosingScript a) :=
  isNearestScript_find? (v.climb_succ_size a)

/- Downwards -/

-- What is still to be written of a dump.
inductive Part
  | node (r : Ref)
  | text (s : String)

-- The recursion over a tree, with the stack of what is left to do.
def dumpTurn (f : Forest) : List Part × String → (List Part × String) ⊕ String
  | ([], out) => .inr out
  | (.text s :: parts, out) => .inl (parts, out ++ s)
  | (.node r :: parts, out) =>
    match f.node? r with
    | none => .inl (parts, out ++ "(<invalid>)")
    | some n =>
      let children := n.children.flatMap fun c => [.text " ", .node c]
      .inl (.text ("(" ++ f.heading r n) :: children ++ .text ")" :: parts, out)

variable {parts : List Part} {out result : String}

theorem halts_children {cs : List Ref}
    (node : ∀ c ∈ cs, ∀ parts out, Halts f.dumpTurn (parts, out ++ f.dumpWithin depth c) result →
      Halts f.dumpTurn (.node c :: parts, out) result)
    (h : Halts f.dumpTurn (parts, out ++ String.join (cs.map (" " ++ f.dumpWithin depth ·))) result) :
    Halts f.dumpTurn (cs.flatMap (fun c => [.text " ", .node c]) ++ parts, out) result := by
  induction cs generalizing out
  case nil => simpa using h
  case cons c cs ih =>
    rw [List.forall_mem_cons] at node
    refine .next rfl (node.left _ _ (ih node.right ?_))
    simpa [String.append_assoc] using h

theorem halts_dumpTurn (v : f.Valid) (hd : f.Shallow depth r)
    (h : Halts f.dumpTurn (parts, out ++ f.dumpWithin depth r) result) :
    Halts f.dumpTurn (.node r :: parts, out) result := by
  induction depth generalizing r parts out
  case zero => exact absurd hd Shallow.not_zero
  case succ depth ih =>
    rw [dumpWithin] at h
    cases hn : f.node? r
    case none =>
      rw [hn] at h
      exact .next (by simp only [dumpTurn, hn]) h
    case some n =>
      have children : f.children r = n.children := by simp [Forest.children, hn]
      rw [hn] at h
      refine .next (by simp only [dumpTurn, hn]; rfl) (.next rfl ?_)
      rw [List.append_eq]
      refine halts_children (fun c hc parts out => ih (hd.child v (children ▸ hc))) (.next rfl ?_)
      simpa only [String.append_assoc] using h

theorem Valid.halts_dump (v : f.Valid) (r : Ref) : Halts f.dumpTurn ([.node r], "") (f.dump r) := by
  have written : Halts f.dumpTurn ([], "" ++ f.dump r) (f.dump r) := .stop (by simp [dumpTurn])
  by_cases hr : r = none
  case pos =>
    subst hr
    exact .next rfl written
  case neg => exact halts_dumpTurn v (v.shallow hr) written

end Forest

end ClassLift
