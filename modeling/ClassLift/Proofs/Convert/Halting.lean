import ClassLift.Proofs.Convert.Traversal
import ClassLift.Proofs.Tree.Walks

/-!
All walks of a conversion come to an end in a valid forest: those up to a script or to another node,
those down a path to the name of a class, a dump, and the loop over the stack of tasks, although that one
changes the forest on its way.
-/

namespace ClassLift

open Workspace Forest

variable {f : Forest} {r script : Ref} {m : MemberAssignment} {depth : Nat}

/- Paths -/

namespace Forest

-- The segments after the expression are those that have been read so far.
def pathTurn (f : Forest) : Ref × List String → (Ref × List String) ⊕ Option (List String)
  | (r, after) =>
    match f.kind? r with
    | some .identifier => .inr ((f.text? r).map (· :: after))
    | some .thisKeyword => .inr (some ("this" :: after))
    | some .propertyAccess =>
      match f.identifierText? (f.last r) with
      | some name => .inl (f.first r, name :: after)
      | none => .inr none
    | _ => .inr none

def nameTurn (f : Forest) (state : Ref × List String) : (Ref × List String) ⊕ Option String :=
  (f.pathTurn state).map id (Option.map Path.toText)

theorem halts_pathTurn (v : f.Valid) (hd : r ≠ none → f.Shallow depth r) (after : List String) :
    Halts f.pathTurn (r, after) ((f.pathWithin depth r).map (· ++ after)) := by
  induction depth generalizing r after
  case zero =>
    obtain rfl : r = none := by
      by_contra hr
      exact Shallow.not_zero (hd hr)
    exact .stop rfl
  case succ depth ih =>
    rw [pathWithin]
    split
    case h_1 kind => exact .stop (by cases h : f.text? r <;> simp [pathTurn, kind, h])
    case h_2 kind => exact .stop (by simp [pathTurn, kind])
    case h_3 kind =>
      have below (hn : f.first r ≠ none) : f.Shallow depth (f.first r) :=
        (hd (has_of_kind? kind).ne_none).child v (child_mem hn)
      cases named : f.identifierText? (f.last r)
      case none => exact .stop (by simp [pathTurn, kind, named])
      case some name =>
        refine .next (by simp [pathTurn, kind, named]; rfl) ?_
        have rest := ih below (name :: after)
        cases h : f.pathWithin depth (f.first r) <;> simpa [h] using rest
    case h_4 =>
      refine .stop ?_
      rw [pathTurn]
      split <;> simp_all

namespace Valid

theorem halts_path (v : f.Valid) (r : Ref) : Halts f.pathTurn (r, []) (f.path? r) := by
  have halts := halts_pathTurn v (v.shallow (r := r)) []
  simpa [path?] using halts

theorem halts_name (v : f.Valid) (r : Ref) : Halts f.nameTurn (r, []) (f.qualifiedName? r) :=
  (v.halts_path r).embed id (Option.map Path.toText) fun _ => rfl

end Valid

end Forest

/- Names of classes -/

namespace MemberAssignment

-- The link to the class is looked for first, and then the name before it is read.
inductive Search
  | link (r : Ref)
  | name (state : Ref × List String)

def search (m : MemberAssignment) (f : Forest) : Search :=
  if m.isStatic f then .name (f.first m.target, []) else .link m.target

def searchTurn (m : MemberAssignment) (f : Forest) :
    Search → Search ⊕ Except ConversionError (Option String)
  | .link r =>
    if f.isKind r .propertyAccess then
      if isPrototype f r then .inl (.name (f.first r, [])) else .inl (.link (f.first r))
    else
      .inr (.error (.missingPrototype m.target))
  | .name state => (f.nameTurn state).map .name .ok

theorem halts_name (v : f.Valid) (r : Ref) :
    Halts (m.searchTurn f) (.name (r, [])) (.ok (f.qualifiedName? r)) :=
  (v.halts_name r).embed Search.name Except.ok fun _ => rfl

theorem halts_link (v : f.Valid) (hd : r ≠ none → f.Shallow depth r) :
    Halts (m.searchTurn f) (.link r) (match prototypeWithin f depth r with
      | some access => .ok (f.qualifiedName? (f.first access))
      | none => .error (.missingPrototype m.target)) := by
  induction depth generalizing r
  case zero =>
    obtain rfl : r = none := by
      by_contra hr
      exact Shallow.not_zero (hd hr)
    exact .stop rfl
  case succ depth ih =>
    rw [prototypeWithin]
    by_cases access : f.isKind r .propertyAccess
    case neg => exact .stop (by simp [searchTurn, access])
    case pos =>
      rw [if_pos access]
      by_cases link : isPrototype f r
      case pos =>
        rw [if_pos link]
        exact .next (by simp [searchTurn, access, link]) (halts_name v _)
      case neg =>
        rw [if_neg link]
        have hr := (has_of_kind? (isKind_iff.mp access)).ne_none
        exact .next (by simp [searchTurn, access, link]) (ih fun hn => (hd hr).child v (child_mem hn))

theorem halts_className (m : MemberAssignment) (v : f.Valid) :
    Halts (m.searchTurn f) (m.search f) (m.className? f) := by
  rw [search, className?]
  split
  case isTrue  => exact halts_name v _
  case isFalse => exact halts_link v v.shallow

end MemberAssignment

/- The work on a script -/

theorem Course.halts {options : Options} {ts : List Task} {w : Workspace} {visits : List Ref}
    {o : Outcome Unit} (c : Course options script ts w visits o) : Halts (turn options script) (ts, w) o := by
  induction c
  case done => exact .stop rfl
  case enter hd _ ih => exact .next (by rw [turn, hd, if_neg (by simp)]) ih
  case leave hd hv _ ih => exact .next (by rw [turn, hd, if_neg (by simp), hv]) ih
  case fail hd hv => exact .stop (by rw [turn, hd, if_neg (by simp), hv])

theorem Forest.Valid.halts_work (v : f.Valid) (hs : f.kind? script = some .script) (options : Options) :
    Halts (turn options script) ([.enter script], { forest := f }) (f.runScript options script) := by
  obtain ⟨visits, c, -⟩ := course_of_script v (has_of_kind? hs) options
  rw [runScript_eq_foldScript v, foldScript_of_kind hs]
  exact c.halts

-- Without any count of their turns all walks end, wherever they begin. What they give are the answers of
-- the forest, and those of the walks upwards are told by the chain of parents.
theorem walks_halt (h : f.check = .ok ()) :
    (∀ r a, Halts (f.withinTurn a) r (f.isWithin r a)) ∧
    (∀ r, Halts f.scriptTurn r (f.enclosingScript r)) ∧
    (∀ r, Halts f.pathTurn (r, []) (f.path? r)) ∧
    (∀ r, Halts f.nameTurn (r, []) (f.qualifiedName? r)) ∧
    (∀ m : MemberAssignment, Halts (m.searchTurn f) (m.search f) (m.className? f)) ∧
    (∀ r, Halts f.dumpTurn ([.node r], "") (f.dump r)) ∧
    (∀ options script, f.kind? script = some .script →
      Halts (turn options script) ([.enter script], { forest := f }) (f.runScript options script)) ∧
    (∀ a b, a ≠ none → (f.isWithin a b ↔ b = a ∨ f.Has b ∧ ∃ n, f.parent^[n] a = b)) ∧
    ∀ a, f.IsNearestScript a (f.enclosingScript a) := by
  have v := valid_of_check h
  exact ⟨fun r _ => halts_withinTurn (v.climb_succ_size r),
    fun r => halts_scriptTurn (v.climb_succ_size r),
    v.halts_path, v.halts_name, fun m => m.halts_className v, v.halts_dump,
    fun options _ hs => v.halts_work hs options, fun _ _ ha => v.isWithin_iff_reached ha, v.isNearestScript⟩

theorem walks_halt_sample : sample.check = .ok () ∧
    Halts (sample.withinTurn (some 5)) (some 9) true ∧
    Halts (sample.withinTurn (some 1)) (some 9) false ∧
    Halts sample.scriptTurn (some 9) (some 0) ∧
    Halts sample.scriptTurn (some 99) none ∧
    Halts sample.pathTurn (some 7, []) (some ["A", "prototype", "m"]) ∧
    Halts sample.nameTurn (none, []) none ∧
    Halts ((⟨some 5, some 6, some 7, some 12, none⟩ : MemberAssignment).searchTurn sample) (.link (some 7))
      (.ok (some "A")) ∧
    Halts sample.dumpTurn ([.node (some 8)], "")
      "(PropertyAccess (Identifier A) (Identifier prototype))" ∧
    sample.kind? (some 0) = some .script ∧
    Halts (turn {} (some 0)) ([.enter (some 0)], { forest := sample }) (sample.runScript {} (some 0)) ∧
    sample.IsNearestScript (some 9) (some 0) := by
  have ⟨within, scripts, paths, names, classNames, dumps, work, _, nearest⟩ := walks_halt sample_check
  exact ⟨sample_check, within (some 9) (some 5), within (some 9) (some 1), scripts (some 9), scripts (some 99),
    paths (some 7), names none, classNames ⟨some 5, some 6, some 7, some 12, none⟩, dumps (some 8), rfl,
    work {} (some 0) rfl, nearest (some 9)⟩

end ClassLift
