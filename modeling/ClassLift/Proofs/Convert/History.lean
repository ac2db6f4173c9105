import ClassLift.Proofs.Convert.Registry
import Mathlib.Data.List.DropRight
import Mathlib.Data.Set.Card

/-!
What a registry knows after any history of calls: of every name the first definition since the last
reset. The answers of the calls and the findings beside the registry follow from that.
-/

namespace ClassLift

namespace Registry

-- What can be asked of a registry. A node comes along with the forest that it is in.
inductive Call
  | register (f : Forest) (name : String) (node : Ref)
  | isAvailable (f : Forest) (name : String) (node : Ref)
  | reset

namespace Call

def isReset : Call → Bool
  | reset => true
  | register .. | isAvailable .. => false

def definition? : Call → Option (String × Ref)
  | register _ name node => some (name, node)
  | isAvailable .. | reset => none

-- The answer to a call, and what becomes of the registry and of the findings.
def run (w : Workspace) : Call → Option Bool × Workspace
  | register f name node => ({ w with forest := f }.register name node).map some id
  | isAvailable f name node => ({ w with forest := f }.isAvailable name node).map some id
  | reset => (none, { w with registry := w.registry.reset })

-- What is left of a workspace by one call after the other.
def runAll (w : Workspace) (calls : List Call) : Workspace :=
  calls.foldl (fun w call => (call.run w).2) w

-- The definitions that were tried since the last reset.
def tried (calls : List Call) : List (String × Ref) :=
  (calls.rtakeWhile (!·.isReset)).filterMap definition?

end Call

-- Of every name the first definition, in their order.
def firsts : List (String × Ref) → List (String × Ref)
  | [] => []
  | d :: ds => d :: (firsts ds).filter (·.1 ≠ d.1)

/- First definitions -/

variable {d : String × Ref} {ds : List (String × Ref)} {name : String}

theorem mem_names_firsts : name ∈ (firsts ds).map (·.1) ↔ name ∈ ds.map (·.1) := by
  induction ds
  case nil => rfl
  case cons d ds ih =>
    by_cases h : name = d.1
    case pos => simp [firsts, h]
    case neg => simpa [firsts, h] using ih

theorem nodup_names_firsts (ds : List (String × Ref)) : ((firsts ds).map (·.1)).Nodup := by
  induction ds
  case nil => exact List.nodup_nil
  case cons d ds ih =>
    have others : (((firsts ds).filter (·.1 ≠ d.1)).map (·.1)).Nodup :=
      ih.sublist (List.filter_sublist.map _)
    simpa [firsts] using others

theorem find?_firsts (ds : List (String × Ref)) (name : String) :
    (firsts ds).find? (·.1 == name) = ds.find? (·.1 == name) := by
  induction ds
  case nil => rfl
  case cons d ds ih =>
    by_cases h : d.1 = name
    case pos => simp [firsts, h]
    case neg =>
      have others : ((firsts ds).filter (·.1 ≠ d.1)).find? (·.1 == name) =
          (firsts ds).find? (·.1 == name) := by
        rw [List.find?_filter]
        congr 1
        funext e
        by_cases he : e.1 = name <;> simp [he, Ne.symm h]
      rw [firsts, List.find?_cons_of_neg (by simpa using h), others, ih,
        List.find?_cons_of_neg (by simpa using h)]

-- A further definition comes first if there was none with its name.
theorem firsts_concat (ds : List (String × Ref)) (d : String × Ref) :
    firsts (ds ++ [d]) = if d.1 ∈ ds.map (·.1) then firsts ds else firsts ds ++ [d] := by
  induction ds
  case nil => rfl
  case cons e ds ih =>
    rw [List.cons_append, firsts, ih, firsts, List.map_cons]
    by_cases h : d.1 ∈ ds.map (·.1)
    case pos => rw [if_pos h, if_pos (List.mem_cons_of_mem _ h)]
    case neg =>
      rw [if_neg h, List.filter_append]
      by_cases he : d.1 = e.1
      case pos => simp [he]
      case neg => rw [if_neg (by simp [he, h])]; simp [he]

example : firsts [("A", some 1), ("B", some 2), ("A", some 3)] = [("A", some 1), ("B", some 2)] := by
  decide

/- One call -/

namespace Call

-- A name that is known is refused with a finding, and nothing else happens to any entry.
theorem run_register (w : Workspace) (f : Forest) (name : String) (node : Ref) :
    (register f name node).run w =
      if w.registry.contains name then
        (some false, { w with forest := f, findings := w.findings ++ [.at f .classRedefined node name] })
      else
        (some true, { w with forest := f, registry.entries := w.registry.entries ++ [(name, node)] }) := by
  cases known : w.registry.contains name
  all_goals
    simp [run, Workspace.register, Registry.register, refusal?, known, Workspace.note]

theorem run_isAvailable (w : Workspace) (f : Forest) (name : String) (node : Ref) :
    (isAvailable f name node).run w =
      if w.registry.contains name then
        (some false, { w with forest := f, findings := w.findings ++ [.at f .classRedefined node name] })
      else
        (some true, { w with forest := f }) := by
  cases known : w.registry.contains name
  all_goals simp [run, Workspace.isAvailable, refusal?, known, Workspace.note]

@[simp]
theorem tried_register (calls : List Call) (f : Forest) (name : String) (node : Ref) :
    tried (calls ++ [register f name node]) = tried calls ++ [(name, node)] := by
  simp [tried, isReset, definition?]

@[simp]
theorem tried_isAvailable (calls : List Call) (f : Forest) (name : String) (node : Ref) :
    tried (calls ++ [isAvailable f name node]) = tried calls := by
  simp [tried, isReset, definition?]

@[simp]
theorem tried_reset (calls : List Call) : tried (calls ++ [reset]) = [] := by
  simp [tried, isReset]

end Call

/- All calls -/

open Call

variable {r : Registry}

theorem contains_iff_of_firsts (h : r.entries = firsts ds) (name : String) :
    r.contains name ↔ name ∈ ds.map (·.1) := by
  rw [← mem_names_firsts, ← h]
  simp [contains, lookup?]

theorem lookup?_of_firsts (h : r.entries = firsts ds) (name : String) :
    r.lookup? name = (ds.find? (·.1 == name)).map (·.2) := by
  rw [lookup?, h, find?_firsts]

theorem size_of_firsts (h : r.entries = firsts ds) : r.size = {name | r.contains name}.ncard := by
  have names : {name | r.contains name} = ((r.entries.map (·.1)).toFinset : Set String) := by
    ext name
    simp [contains, lookup?]
  rw [names, Set.ncard_coe_finset, List.toFinset_card_of_nodup (h ▸ nodup_names_firsts ds), List.length_map,
    size]

theorem isEmpty_iff_size (r : Registry) : r.isEmpty ↔ r.size = 0 := by
  rw [isEmpty, size, List.isEmpty_iff, List.length_eq_zero_iff]

-- A call makes of the first definitions before it the first definitions after it.
theorem entries_run {w : Workspace} {calls : List Call} (h : w.registry.entries = firsts (tried calls))
    (call : Call) : (call.run w).2.registry.entries = firsts (tried (calls ++ [call])) := by
  cases call
  case register f name node =>
    rw [run_register, tried_register, firsts_concat, ← h]
    simp only [contains_iff_of_firsts h]
    split <;> rfl
  case isAvailable f name node =>
    rw [run_isAvailable, tried_isAvailable, ← h]
    split <;> rfl
  case reset => rw [tried_reset]; rfl

theorem entries_runAll {start : Workspace} (empty : start.registry = {}) (calls : List Call) :
    (runAll start calls).registry.entries = firsts (tried calls) := by
  induction calls using List.reverseRecOn
  case nil => rw [runAll, List.foldl_nil, empty]; rfl
  case append_singleton calls call ih =>
    rw [runAll, List.foldl_concat]
    exact entries_run ih call

-- `A` is defined twice, `B` is free, and then all is forgotten.
example :
    let calls := [.register {} "A" (some 1), .register {} "A" (some 2), .isAvailable {} "B" (some 3)]
    let w := runAll { forest := {} } calls
    let w' := runAll w [.reset, .register {} "A" (some 4)]
    w.registry.iter = [("A", some 1)] ∧ w.findings = [.at {} .classRedefined (some 2) "A"] ∧
      w'.registry.iter = [("A", some 4)] ∧ w'.findings = w.findings := by
  decide

end Registry

end ClassLift
