import ClassLift.Proofs.Convert.Outcome
import ClassLift.Proofs.Convert.Reports

/-!
Reports of classes that are not found. No visit reads what has been found before it, so a run that makes
no such reports does all else in the same way.
-/

namespace ClassLift

open Workspace Forest

namespace Options

def silent (options : Options) : Options :=
  { options with reportUnknownClasses := false }

def loud (options : Options) : Options :=
  { options with reportUnknownClasses := true }

end Options

variable {options : Options} {f : Forest} {script : Ref} {w : Workspace}

/- Workspaces without such reports -/

namespace Workspace

def mute (w : Workspace) : Workspace :=
  { w with findings := w.findings.filter (!·.isUnknown) }

@[simp]
theorem forest_mute (w : Workspace) : w.mute.forest = w.forest := rfl

@[simp]
theorem registry_mute (w : Workspace) : w.mute.registry = w.registry := rfl

theorem mute_report_unknown (w : Workspace) (node : Ref) (className : String) :
    (w.report .unknownClass node className).mute = w.mute := by
  simp [mute, report, note, Finding.at, Finding.isUnknown]

theorem mute_note {finding : Finding} (h : finding.isUnknown = false) :
    (w.note finding).mute = w.mute.note finding := by
  simp [mute, note, h]

theorem mute_define (w : Workspace) (name : Option String) (node : Ref) :
    (w.define name node).mute = w.mute.define name node := by
  cases name
  case none => rfl
  case some name =>
    cases h : w.registry.lookup? name
    case none =>
      have h' : w.mute.registry.lookup? name = none := h
      rw [define_of_free h, define_of_free h']
      rfl
    case some =>
      have h' : w.mute.registry.lookup? name = some _ := h
      rw [define_of_taken h, define_of_taken h']
      exact mute_note rfl

end Workspace

/- Steps -/

-- The outcome of a step without such reports.
def Outcome.mute {α : Type} (o : Outcome α) : Outcome α :=
  (o.1, o.2.mute)

namespace Workspace

theorem promoteAs_mute (w : Workspace) (className : Option String) (function : Ref) (doc : Nat) :
    w.mute.promoteAs className function doc = Outcome.mute (w.promoteAs className function doc) := by
  unfold promoteAs
  rw [forest_mute]
  split
  case h_1 bare name parameters body _ =>
    dsimp only
    split
    case h_1 =>
      rw [Outcome.mute, mute_define]
      rfl
    case h_2 => rfl
  case h_2 | h_3 => rfl

theorem promote_mute (w : Workspace) (function : Ref) (doc : Nat) :
    w.mute.promote function doc = Outcome.mute (w.promote function doc) := by
  unfold promote
  rw [forest_mute, registry_mute]
  split
  case h_1 => rfl
  case h_2 =>
    dsimp only
    split
    case h_1 finding taken =>
      have ⟨name, _, refused⟩ := Option.bind_eq_some_iff.mp taken
      have redefined : finding.isUnknown = false := by
        unfold Registry.refusal? at refused
        split at refused <;> cases refused
        rfl
      exact Prod.ext rfl (mute_note redefined).symm
    case h_2 =>
      rw [promoteAs_mute]
      rfl

theorem moveInto_mute (w : Workspace) (members : Ref) (m : MemberAssignment) (name : String)
    (isStatic : Bool) :
    w.mute.moveInto members m name isStatic = Outcome.mute (w.moveInto members m name isStatic) := by
  unfold moveInto
  rw [forest_mute]
  split
  case h_1 => rfl
  case h_2 =>
    split
    case h_1 => rfl
    case h_2 =>
      dsimp only
      split <;> rfl

-- Only here the option is read.
theorem merge_mute (w : Workspace) (m : MemberAssignment) :
    w.mute.merge options.silent m = Outcome.mute (w.merge options.loud m) := by
  have same : options.silent.mergeStaticMethods = options.loud.mergeStaticMethods := rfl
  unfold merge
  rw [forest_mute, registry_mute, same]
  dsimp only
  split
  case isTrue => rfl
  case isFalse =>
    split
    case h_1 | h_2 => rfl
    case h_3 className _ =>
      split
      case h_1 =>
        cases m.isStatic w.forest
        case false => exact Prod.ext rfl (mute_report_unknown ..).symm
        case true => rfl
      case h_2 cls _ =>
        split
        case h_1 => rfl
        case h_2 =>
          split
          case isTrue => rfl
          case isFalse =>
            split
            case h_1 => rfl
            case h_2 =>
              rw [moveInto_mute]
              rfl

theorem visit_mute (options : Options) (w : Workspace) (r : Ref) :
    w.mute.visit options.silent r = Outcome.mute (w.visit options.loud r) := by
  unfold visit
  rw [forest_mute]
  split
  case h_1 => exact Prod.ext rfl (mute_define ..).symm
  case h_2 =>
    split
    case h_1 => rfl
    case h_2 =>
      rw [promote_mute]
      rfl
  case h_3 =>
    split
    case isFalse => rfl
    case isTrue =>
      split
      case h_1 => rfl
      case h_2 =>
        split
        case isFalse => rfl
        case isTrue =>
          rw [merge_mute]
          rfl
  case h_4 => rfl

/- Runs -/

theorem visitAll_mute (rs : List Ref) (w : Workspace) :
    (visitAll options.silent rs w.mute).2 = Outcome.mute (visitAll options.loud rs w).2 := by
  induction rs generalizing w
  case nil => rfl
  case cons r rs ih =>
    have visit := visit_mute options w r
    rcases h : w.visit options.loud r with ⟨⟨e⟩ | ⟨change⟩, w₁⟩ <;> rw [h] at visit
    case error => rw [visitAll_cons_error h, visitAll_cons_error visit, Outcome.mute]
    case ok => rw [visitAll_cons_ok h, visitAll_cons_ok visit, ih]

end Workspace

theorem runScript_mute (v : f.Valid) (script : Ref) :
    f.runScript options.silent script = Outcome.mute (f.runScript options.loud script) := by
  rw [runScript_eq_foldScript v, runScript_eq_foldScript v, foldScript, foldScript]
  split
  case h_1 => rfl
  case h_2 => exact visitAll_mute _ { forest := f }

def Summary.mute (s : Summary) : Summary :=
  { s with findings := s.findings.filter (!·.isUnknown) }

theorem Summary.mute_add (s t : Summary) : (s.add t).mute = s.mute.add t.mute := by
  simp [mute, add]

-- The result of a conversion without such reports.
def RunOutcome.mute (o : RunOutcome) : RunOutcome :=
  (o.1.map Summary.mute, o.2)

theorem convertScript_mute (v : f.Valid) (script : Ref) :
    f.convertScript options.silent script = RunOutcome.mute (f.convertScript options.loud script) := by
  rw [convertScript, convertScript, runScript_mute v]
  rcases f.runScript options.loud script with ⟨⟨e⟩ | ⟨⟨⟩⟩, w⟩ <;> rfl

theorem convertScripts_mute (v : f.Valid) (rs : List Ref) (total : Summary) :
    convertScripts options.silent rs total.mute f =
      RunOutcome.mute (convertScripts options.loud rs total f) := by
  induction rs generalizing total f
  case nil => rfl
  case cons r rs ih =>
    unfold convertScripts
    split
    case isFalse => exact ih v total
    case isTrue script =>
      have valid : (f.convertScript options.loud r).2.Valid := valid_convertScript v (isKind_iff.mp script)
      rw [convertScript_mute v]
      rcases h : f.convertScript options.loud r with ⟨⟨e⟩ | ⟨s⟩, g⟩
      case error => rfl
      case ok =>
        rw [h] at valid
        dsimp only [RunOutcome.mute, Except.map]
        rw [← Summary.mute_add, ih valid]
        rfl

-- Without the reports, a conversion ends in the same way, leaves the same forest and counts the same. What
-- it finds is the rest of what is found with them.
theorem convert_mute (v : f.Valid) (options : Options) (root : Ref) :
    f.convert options.silent root = RunOutcome.mute (f.convert options.loud root) := by
  unfold convert
  split
  case isTrue => exact convertScript_mute v root
  case isFalse =>
    split
    case h_1 => rfl
    case h_2 => exact convertScripts_mute v _ {}

end ClassLift
