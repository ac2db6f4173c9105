import ClassLift.Proofs.Convert.Abort
import ClassLift.Proofs.Convert.Independence
import ClassLift.Proofs.Convert.Rest

/-!
What the result of a conversion says apart from its merges: the findings, and how many classes are promoted
and registered. All of that can be told from the original trees.
-/

namespace ClassLift

open Workspace Forest

variable {options : Options} {f g : Forest} {script root r : Ref} {done rest : List Ref} {log : Log}
variable {w w' : Workspace} {change : Option Change} {summary : Summary}

-- A summary without its merges.
def Summary.outline (s : Summary) : Summary where
  findings := s.findings
  stats.classesPromoted := s.stats.classesPromoted
  stats.classesRegistered := s.stats.classesRegistered

namespace Forest

-- A definition with a name is registered unless the name is taken.
def isRegistered (f : Forest) (script r : Ref) : Bool :=
  f.isDefinition r && (f.nearestName? r).isSome && !f.isTaken script r

def outline (f : Forest) (options : Options) (script : Ref) : Summary where
  findings := (f.postorder script).filterMap (f.findingAt? options script)
  stats.classesPromoted := (f.postorder script).countP (f.becomesClass script)
  stats.classesRegistered := (f.postorder script).countP (f.isRegistered script)

end Forest

/- Counts -/

def Change.isPromotion : Change → Bool
  | promotion .. => true
  | merge .. => false

namespace Workspace

theorem Visited.classesPromoted (h : w.Visited options r change w') : w'.stats.classesPromoted =
    w.stats.classesPromoted + change.toList.countP Change.isPromotion := by
  cases h
  case pass | plain | statement => rfl
  case cls => simp
  case constructor ok =>
    cases ok
    case refused => rfl
    case promoted => simp [countPromotion, Change.isPromotion]
  case method ok =>
    cases ok <;> rfl

end Workspace

-- A visit promotes its node if and only if the node becomes a class.
theorem Run.countP_isPromotion (run : Run options f done log w) (v : f.Valid) (hs : f.Has script)
    (order : f.postorder script = done ++ r :: rest) (visited : w.Visited options r change w') :
    change.toList.countP Change.isPromotion = [r].countP (f.becomesClass script) := by
  have t := turn_of_postorder v hs order
  have p := run.progress v hs order
  have d := (run.defined v hs order).step p v t.has t.fresh visited
  have order' : f.postorder script = (done ++ [r]) ++ rest := by simpa using order
  have becomes := d.promoted_iff v hs order' (List.mem_append_right done (List.mem_singleton_self r))
  have fresh (cls : Ref) : .promotion r cls ∉ log := fun hm => t.fresh (p.promoted hm).visited
  rcases visited.change_cases with rfl | ⟨cls, rfl⟩ | ⟨m, member, rfl, of⟩ <;>
    simp [Change.isPromotion, fresh] at becomes ⊢ <;> simp [becomes]

theorem Run.classesPromoted_eq (run : Run options f done log w) (v : f.Valid) (hs : f.Has script)
    (h : f.postorder script = done ++ rest) :
    w.stats.classesPromoted = done.countP (f.becomesClass script) := by
  refine run.invariant (motive := fun done _ w => w.stats.classesPromoted =
    done.countP (f.becomesClass script)) v hs h rfl ?_
  intro done log w r rest change w' order run counted visited
  rw [visited.classesPromoted, counted, List.countP_append, run.countP_isPromotion v hs order visited]

theorem Run.classesRegistered_eq (run : Run options f done log w) (v : f.Valid) (hs : f.Has script)
    (h : f.postorder script = done ++ rest) :
    w.stats.classesRegistered = done.countP (f.isRegistered script) := by
  have d := run.defined v hs h
  rw [(run.reported v hs h).counted, d.entries, List.filterMap_filter, List.length_filterMap_eq_countP,
    definitions, List.countP_filter]
  refine List.countP_congr fun x hx => ?_
  by_cases hd : f.isDefinition x
  case neg => simp [isRegistered, hd]
  case pos =>
    have taken := isRepeated_eq v hs h (mem_definitions.mpr ⟨hx, hd⟩)
    rw [isRegistered, ← taken, isRepeated, isFirst]
    cases hn : f.nearestName? x <;> simp [hd]

theorem Run.outline_eq (run : Run options f (f.postorder script) log w) (v : f.Valid) (hs : f.Has script) :
    w.summary.outline = f.outline options script := by
  have order : f.postorder script = f.postorder script ++ [] := by simp
  rw [Summary.outline, Workspace.summary, run.findings_eq v hs order, run.classesPromoted_eq v hs order,
    run.classesRegistered_eq v hs order, outline]

/- Whole conversions -/

theorem Summary.outline_join (part : Ref → Summary) (ss : List Ref) :
    (join part ss).outline = join (fun s => (part s).outline) ss := by
  simp [join, outline, Stats.sum, Function.comp_def]

theorem Summary.join_congr {part part' : Ref → Summary} {ss : List Ref} (h : ∀ s ∈ ss, part s = part' s) :
    join part ss = join part' ss := by
  rw [join, join, List.flatMap_congr fun s hs => congrArg Summary.findings (h s hs),
    List.map_congr_left fun s hs => congrArg Summary.stats (h s hs)]

namespace Forest

-- Only a script or a root is converted.
def expectTop (f : Forest) (root : Ref) : Except ConversionError Unit :=
  if f.isKind root .script then .ok () else (f.expectKind root .root).mapError .tree

end Forest

theorem Hosts.refl (v : f.Valid) : Hosts f f root :=
  ⟨v, Nat.le_refl _, fun _ => rfl, ⟨#[], by simp⟩, rfl, rfl⟩

theorem convert_of_expectTop_error {e : ConversionError} (h : f.expectTop root = .error e) (options : Options) :
    f.kind? root ≠ some .script ∧ f.kind? root ≠ some .root ∧ f.convert options root = (.error e, f) := by
  unfold expectTop at h
  unfold convert
  split at h
  case isTrue => cases h
  case isFalse script =>
    rw [isKind_iff] at script
    rw [if_neg (isKind_iff.not.mpr script)]
    cases he : f.expectKind root .root <;> rw [he] at h <;> cases h
    refine ⟨script, fun hr => ?_, rfl⟩
    cases he.symm.trans (expectKind_eq_ok (u := ()) |>.mpr hr)

theorem changesOf_eq_nil {rs : List Ref} (none : ∀ r ∈ rs, f.isKind r .script = false) :
    changesOf options rs f = [] := by
  induction rs
  case nil => rfl
  case cons r rs ih =>
    have ⟨other, others⟩ := List.forall_mem_cons.mp none
    simp [changesOf, other, ih others]

section Shaped

variable (v : f.Valid) (shaped : f.isShaped)
include v shaped

-- Where all nodes have the children that they should have, no script fails.
theorem exists_outline (options : Options) (hs : f.kind? script = some .script) :
    ∃ s, (f.convertScript options script).1 = .ok s ∧ s.outline = f.outline options script := by
  rcases h : f.runScript options script with ⟨⟨e⟩ | ⟨⟨⟩⟩, w⟩
  case ok =>
    refine ⟨w.summary, by rw [convertScript, h]; rfl, ?_⟩
    exact (run_of_ok v h).right.outline_eq v (has_of_kind? hs)
  case error => exact absurd shaped (runScript_error v hs h).not_shaped

-- The conversions of all scripts together have the outlines of the scripts.
theorem convert_outline (options : Options) (root : Ref) :
    (f.convert options root).1.map Summary.outline =
      (f.expectTop root).map fun () => .join (f.outline options) (f.scripts root) := by
  unfold convert expectTop scripts
  split
  case isTrue hk =>
    have ⟨s, ok, outline⟩ := exists_outline v shaped options (isKind_iff.mp hk)
    rw [ok]
    exact congrArg Except.ok <| outline.trans (Summary.add_zero _).symm
  case isFalse =>
    split
    case h_1 e he => rw [he]; rfl
    case h_2 ok =>
      have hr := has_of_kind? (expectKind_eq_ok.mp ok)
      have part (s : Ref) : ∃ t, f.isKind s .script →
          (f.convertScript options s).1 = .ok t ∧ t.outline = f.outline options s := by
        by_cases hk : f.isKind s .script
        case pos => exact (exists_outline v shaped options (isKind_iff.mp hk)).imp fun t h _ => h
        case neg => exact ⟨{}, fun h => absurd h hk⟩
      choose part alone using part
      have all := convertScripts_of_alone v (.of_children v hr)
        (fun s _ hs => (alone s hs).left) v (fun _ _ => .refl v) {}
      rw [all.left, Summary.zero_add, ok]
      refine congrArg Except.ok <| (Summary.outline_join ..).trans <| Summary.join_congr fun s hs => ?_
      exact (alone s (List.mem_filter.mp hs).right).right

-- Only a root has scripts below it.
theorem isKind_script_of_child (hr : f.kind? root ≠ some .root) (hs : r ∈ f.children root) :
    f.isKind r .script = false := by
  have parent := v.parent_eq hs
  refine Bool.eq_false_iff.mpr fun script => ?_
  rcases parent_script_of_fits (fits_of_isShaped shaped r) (isKind_iff.mp script) with top | above
  case inl => exact (has_of_mem_children hs).ne_none (parent.symm.trans top)
  case inr => exact hr (parent ▸ above)

-- A conversion that fails at its root has no scripts to convert.
theorem passes_of_shaped (options : Options) (root : Ref) : ∃ summary,
    Passes options (f.scripts root) f (f.allChanges options root) summary (f.convert options root).2 := by
  have outline := convert_outline v shaped options root
  cases top : f.expectTop root
  case ok =>
    rcases h : f.convert options root with ⟨⟨e⟩ | ⟨summary⟩, g⟩
    case ok => exact ⟨summary, passes_of_ok v shaped h⟩
    case error => simp [h, top, Except.map] at outline
  case error e =>
    have ⟨script, root, failed⟩ := convert_of_expectTop_error top options
    have none (r : Ref) (hr : r ∈ f.children _) := isKind_script_of_child v shaped root hr
    refine ⟨{}, ?_⟩
    rw [failed, scripts, if_neg (isKind_iff.not.mpr script), allChanges, if_neg (isKind_iff.not.mpr script),
      List.filter_eq_nil_iff.mpr fun r hr => by simp [none r hr], changesOf_eq_nil none]
    exact .nil v

end Shaped

end ClassLift
