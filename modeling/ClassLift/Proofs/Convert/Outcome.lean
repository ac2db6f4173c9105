import ClassLift.Proofs.Convert.Failure
import ClassLift.Proofs.Convert.Traversal

/-!
How a conversion ends. Either every node of a script is visited, or the visits stop at one that fails;
the forest is valid in both cases.
-/

namespace ClassLift

open Workspace Forest

variable {options : Options} {f : Forest} {script root : Ref} {rs : List Ref} {total : Summary}

inductive Ends (options : Options) (f : Forest) (script : Ref) : Outcome Unit → Prop
  | finished {w : Workspace}
    (run : Run options f (f.postorder script) (f.changes options script) w) :
    Ends options f script (.ok (), w)
  | failed {done rest : List Ref} {r : Ref} {w : Workspace} {e : ConversionError}
    (order : f.postorder script = done ++ r :: rest)
    (run : Run options f done (f.changes options script) w) (fails : w.Fails options r e) :
    Ends options f script (.error e, w)

theorem runScript_ends (v : f.Valid) (hs : f.kind? script = some .script) :
    Ends options f script (f.runScript options script) := by
  have has := has_of_kind? hs
  rcases hr : f.runScript options script with ⟨⟨e⟩ | ⟨⟨⟩⟩, w⟩
  case ok => exact .finished (run_of_ok v hr).right
  case error =>
    rw [runScript_eq_foldScript v, foldScript_of_kind hs] at hr
    obtain ⟨done, r, rest, w₁, order, ok, error⟩ := visitAll_error (Prod.ext rfl hr)
    have run : Run options f done _ w₁ := Run.start.visitAll ok
    have p := run.progress v has order
    have t := turn_of_postorder v has order
    have ⟨hc, _⟩ := contains_of_postorder v has order
    have attached (hk : w₁.forest.kind? r ≠ some .script) : w₁.forest.parent r ≠ none := by
      rw [p.parent_eq v t.has t.fresh]
      refine (hc.parent_of_ne ?_).ne_none has.ne_none
      rintro rfl
      exact hk ((p.ext.kind? has).trans hs)
    obtain ⟨rfl, fails⟩ := fails_of_error p.valid attached error
    exact .failed order run fails

theorem Ends.progress {o : Outcome Unit} (h : Ends options f script o) (v : f.Valid)
    (hs : f.Has script) :
    ∃ done log, Progress f done log o.2 ∧ ∀ r ∈ done, f.Contains script r := by
  cases h
  case finished run =>
    have order : f.postorder script = f.postorder script ++ [] := by simp
    exact ⟨_, _, run.progress v hs order, fun _ => (v.mem_postorder hs.ne_none).mp⟩
  case failed order run _ =>
    exact ⟨_, _, run.progress v hs order, (contains_of_postorder v hs order).right⟩

theorem valid_convertScript (v : f.Valid) (hs : f.kind? script = some .script) :
    (f.convertScript options script).2.Valid :=
  have ⟨_, _, p, _⟩ := (runScript_ends v hs).progress v (has_of_kind? hs)
  p.valid

theorem valid_convertScripts (v : f.Valid) : (convertScripts options rs total f).2.Valid := by
  induction rs generalizing f total
  case nil => exact v
  case cons r rs ih =>
    rw [convertScripts]
    split
    case isFalse => exact ih v
    case isTrue hk =>
      have v' : (f.convertScript options r).2.Valid := valid_convertScript v (isKind_iff.mp hk)
      split
      case h_1 h =>
        rw [h] at v'
        exact ih v'
      case h_2 => exact v'

theorem valid_convert (v : f.Valid) (options : Options) (root : Ref) :
    (f.convert options root).2.Valid := by
  unfold convert
  split
  case isTrue hk => exact valid_convertScript v (isKind_iff.mp hk)
  case isFalse =>
    split
    case h_1 => exact v
    case h_2 => exact valid_convertScripts v

-- Whatever a conversion leaves behind passes the check again, also when it fails.
theorem check_convert (h : f.check = .ok ()) (options : Options) (root : Ref) :
    (f.convert options root).2.check = .ok () :=
  check_of_valid (valid_convert (valid_of_check h) options root)

-- A documented function, and another one that has no body.
def halted : Forest where
  nodes := #[
    { kind := .script, data := some 0, children := [some 1, some 5] },
    { kind := .function, doc := some 0, parent := some 0, children := [some 2, some 3, some 4] },
    { kind := .identifier, data := some 0, parent := some 1 },
    { kind := .parameterList, parent := some 1 },
    { kind := .block, parent := some 1 },
    { kind := .function, doc := some 0, parent := some 0, children := [some 6, some 7] },
    { kind := .identifier, data := some 1, parent := some 5 },
    { kind := .parameterList, parent := some 5 }]
  texts := #["A", "B"]
  files := #["a.js"]
  docs := #[.constructor none none]

theorem halted_check : halted.check = .ok () :=
  (check_eq_checkChains _).trans rfl

theorem halted_convert : halted.convert {} (some 0) =
    (.error (.malformedFunction (some 5)), (halted.foldScript {} (some 0)).2.forest) :=
  (convert_of_script (valid_of_check halted_check) rfl).trans rfl

-- When the second function fails, the first one has become a class already.
theorem check_convert_halted :
    let g := (halted.foldScript {} (some 0)).2.forest
    halted.check = .ok () ∧ halted.convert {} (some 0) = (.error (.malformedFunction (some 5)), g) ∧
      halted.kind? ((halted.children (some 0)).getD 0 none) = some .function ∧
      g.kind? ((g.children (some 0)).getD 0 none) = some .classDefinition ∧ g.check = .ok () := by
  have checked := check_convert halted_check {} (some 0)
  rw [halted_convert] at checked
  exact ⟨halted_check, halted_convert, rfl, rfl, checked⟩

end ClassLift
