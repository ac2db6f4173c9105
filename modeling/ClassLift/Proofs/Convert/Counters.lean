import ClassLift.Proofs.Convert.Displaced
import ClassLift.Proofs.Convert.Outline
import Mathlib.Data.Set.Card

/-!
The counts of a conversion. Each of them can be told from the forests before and after it, or from the
registries of its scripts.
-/

namespace ClassLift

open Forest Workspace

variable {options : Options} {f g : Forest} {script root r cls : Ref} {done rest rs ss : List Ref}
variable {log : Log} {w w' : Workspace} {change : Option Change} {total summary : Summary}

/- Names -/

def Registry.names (r : Registry) : List String :=
  r.entries.map (·.1)

theorem Registry.not_mem_names {r : Registry} {name : String} (h : r.lookup? name = none) : name ∉ r.names := by
  intro hm
  have ⟨e, he, same⟩ := List.mem_map.mp hm
  rw [lookup?, Option.map_eq_none_iff, List.find?_eq_none] at h
  exact h e he (by simpa using same)

-- The classes that are known after the conversion of each script.
def registriesOf (options : Options) : List Ref → Forest → List Registry
  | [], _ => []
  | r :: rs, f =>
    if f.isKind r .script then
      (f.runScript options r).2.registry :: registriesOf options rs (f.convertScript options r).2
    else
      registriesOf options rs f

def Forest.registries (f : Forest) (options : Options) (root : Ref) : List Registry :=
  if f.isKind root .script then
    [(f.runScript options root).2.registry]
  else
    registriesOf options (f.children root) f

/- One visit -/

def Change.isMerge (c : Change) : Bool :=
  !c.isPromotion

namespace Workspace

theorem membersMerged_define (name : Option String) (node : Ref) :
    (w.define name node).stats.membersMerged = w.stats.membersMerged := by
  have ⟨n, h⟩ := w.stats_define name node
  rw [h]

-- No name is registered twice.
theorem names_define (unique : w.registry.names.Nodup) (name : Option String) (node : Ref) :
    (w.define name node).registry.names.Nodup := by
  cases name
  case none => exact unique
  case some name =>
    cases free : w.registry.lookup? name
    case some => rwa [define_of_taken free]
    case none =>
      rw [define_of_free free, Registry.names, List.map_append]
      exact unique.append (List.nodup_singleton name) (by simpa using Registry.not_mem_names free)

namespace Visited

theorem membersMerged (h : w.Visited options r change w') : w'.stats.membersMerged =
    w.stats.membersMerged + change.toList.countP Change.isMerge := by
  cases h
  case pass | plain | statement => rfl
  case cls => simp [membersMerged_define]
  case constructor ok =>
    cases ok
    case refused => rfl
    case promoted => simp [membersMerged_define, countPromotion, Change.isMerge, Change.isPromotion]
  case method ok =>
    cases ok <;> rfl

theorem names (h : w.Visited options r change w') (unique : w.registry.names.Nodup) :
    w'.registry.names.Nodup := by
  cases h
  case pass | plain | statement => exact unique
  case cls => exact names_define unique ..
  case constructor ok =>
    cases ok
    case refused => exact unique
    case promoted q g _ _ _ =>
      have unique : ({ w with forest := g }.countPromotion).registry.names.Nodup := unique
      exact names_define unique ..
  case method ok =>
    cases ok <;> exact unique

end Visited

end Workspace

/- One script -/

namespace Run

variable (run : Run options f done log w) (v : f.Valid) (hs : f.Has script)
variable (h : f.postorder script = done ++ rest)
include run v hs h

theorem promotions_eq : w.stats.classesPromoted = log.countP Change.isPromotion := by
  refine run.invariant (motive := fun _ log w => w.stats.classesPromoted = log.countP Change.isPromotion)
    v hs h rfl ?_
  intro done log w r rest change w' _ _ counted visited
  rw [visited.classesPromoted, counted, List.countP_append]

theorem merges_eq : w.stats.membersMerged = log.countP Change.isMerge := by
  refine run.invariant (motive := fun _ log w => w.stats.membersMerged = log.countP Change.isMerge)
    v hs h rfl ?_
  intro done log w r rest change w' _ _ counted visited
  rw [visited.membersMerged, counted, List.countP_append]

theorem classesRegistered_le : w.stats.classesRegistered ≤ (f.definitions done).length := by
  rw [run.classesRegistered_eq v hs h, definitions, ← List.countP_eq_length_filter]
  refine List.countP_mono_left fun x _ registered => ?_
  simp only [isRegistered, Bool.and_eq_true] at registered
  exact registered.left.left

-- The names that are known have all been counted.
theorem card_names : w.stats.classesRegistered = w.registry.names.toFinset.card := by
  have unique := run.invariant (motive := fun _ _ w => w.registry.names.Nodup) v hs h .nil
    fun _ _ unique visited => visited.names unique
  rw [List.toFinset_card_of_nodup unique, Registry.names, List.length_map]
  exact (run.reported v hs h).counted

end Run

/- Whole conversions -/

-- What has been counted in the conversion of the scripts `ss`.
structure Counted (f : Forest) (ss : List Ref) (log : Log) (summary : Summary) (g : Forest) : Prop where
  changes    : summary.stats.codeChanges = log.length
  promotions : summary.stats.classesPromoted = log.countP Change.isPromotion
  merges     : summary.stats.membersMerged = log.countP Change.isMerge
  registered : summary.stats.classesRegistered ≤ (f.definitions (ss.flatMap f.postorder)).length
  idle       : log = [] → g = f

theorem definitions_append (done rest : List Ref) :
    f.definitions (done ++ rest) = f.definitions done ++ f.definitions rest :=
  List.filter_append ..

-- The nodes of the scripts that follow are definitions if they were.
theorem definitions_after {s : Ref} (v : f.Valid) (apart : ∀ t ∈ ss, f.Has t ∧ Apart f s t)
    (ok : f.runScript options s = (.ok (), w)) :
    w.forest.definitions (ss.flatMap f.postorder) = f.definitions (ss.flatMap f.postorder) := by
  refine List.filter_congr fun x hx => ?_
  have ⟨t, ht, hx⟩ := List.mem_flatMap.mp hx
  have ⟨has, apart⟩ := apart t ht
  exact (spares_of_run v has apart ok).isDefinition_eq ((v.mem_postorder has.ne_none).mp hx)

theorem Counted.cons {s : Ref} (h : Counted w.forest ss log summary g) (v : f.Valid)
    (apart : ∀ t ∈ ss, f.Has t ∧ Apart f s t) (ok : f.runScript options s = (.ok (), w)) :
    Counted f (s :: ss) (f.changes options s ++ log) (w.summary.add summary) g := by
  obtain ⟨kind, run⟩ := run_of_ok v ok
  have has := has_of_kind? kind
  have order := (List.append_nil (f.postorder s)).symm
  constructor
  case changes =>
    rw [List.length_append, ← run.codeChanges_eq v has order, ← h.changes]
    rfl
  case promotions =>
    rw [List.countP_append, ← run.promotions_eq v has order, ← h.promotions]
    rfl
  case merges =>
    rw [List.countP_append, ← run.merges_eq v has order, ← h.merges]
    rfl
  case registered =>
    have later := h.registered
    rw [flatMap_postorder_eq v apart ok, definitions_after v apart ok] at later
    rw [List.flatMap_cons, definitions_append, List.length_append]
    exact Nat.add_le_add (run.classesRegistered_le v has order) later
  case idle =>
    intro none
    have ⟨first, rest⟩ := List.append_eq_nil_iff.mp none
    exact (h.idle rest).trans (run.idle v first).forest

theorem Counted.changes_eq (h : Counted f ss log summary g) :
    summary.stats.codeChanges = summary.stats.classesPromoted + summary.stats.membersMerged := by
  have merge : (fun c : Change => decide ¬c.isPromotion) = Change.isMerge := by
    funext c
    simp [Change.isMerge]
  rw [h.changes, h.promotions, h.merges, ← merge]
  exact List.length_eq_countP_add_countP Change.isPromotion

theorem Counted.changed_eq_false (h : Counted f ss log summary g) : summary.changed = false ↔ log = [] := by
  rw [Summary.changed, decide_eq_false_iff_not, Nat.not_lt, Nat.le_zero, h.changes, List.length_eq_zero_iff]

theorem Series.counted (h : Series options ss f log summary g) : Counted f ss log summary g := by
  induction h
  case nil => exact ⟨rfl, rfl, rfl, Nat.zero_le _, fun _ => rfl⟩
  case cons valid apart run _ ih => exact ih.cons valid apart run

theorem registered_of_scripts (v : f.Valid) (ok : convertScripts options rs total f = (.ok summary, g)) :
    summary.stats.classesRegistered = total.stats.classesRegistered +
      ((registriesOf options rs f).map (·.names.toFinset.card)).sum := by
  induction rs generalizing f total
  case nil =>
    cases ok
    rfl
  case cons r rs ih =>
    rcases convertScripts_cons_ok ok with ⟨hk, ok⟩ | ⟨hk, w, hc, ok⟩
    case inl =>
      rw [registriesOf, if_neg hk]
      exact ih v ok
    case inr =>
      obtain ⟨kind, run⟩ := run_of_ok v hc
      have has := has_of_kind? kind
      have order := (List.append_nil (f.postorder r)).symm
      rw [registriesOf, if_pos hk, convertScript, hc, ih (run.progress v has order).valid ok,
        List.map_cons, List.sum_cons, ← run.card_names v has order]
      exact Nat.add_assoc ..

theorem registered_of_ok (v : f.Valid) (ok : f.convert options root = (.ok summary, g)) :
    summary.stats.classesRegistered = ((f.registries options root).map (·.names.toFinset.card)).sum := by
  rw [registries]
  rcases convert_ok ok with ⟨hk, w, hc, rfl, rfl⟩ | ⟨hk, _, ok⟩
  case inl =>
    rw [if_pos hk, hc]
    obtain ⟨kind, run⟩ := run_of_ok v hc
    exact run.card_names v (has_of_kind? kind) (List.append_nil _).symm
  case inr =>
    rw [if_neg hk, registered_of_scripts v ok]
    exact Nat.zero_add _

/- The nodes that are counted -/

theorem length_lt_size {nodes : List Ref} (unique : nodes.Nodup) (has : ∀ x ∈ nodes, f.Has x)
    (hr : f.Has root) (out : root ∉ nodes) : nodes.length < f.size := by
  have sub : root :: nodes ⊆ (List.range f.size).map some := fun x hx => by
    have ⟨i, hi, e⟩ := has_iff.mp <| (List.forall_mem_cons (p := f.Has)).mpr ⟨hr, has⟩ x hx
    exact e ▸ List.mem_map_of_mem (List.mem_range.mpr hi)
  have le := (List.subperm_of_subset (List.nodup_cons.mpr ⟨out, unique⟩) sub).length_le
  simpa using le

-- What is visited is reached from a script.
theorem reached_of_mem_visits (v : f.Valid) (hx : r ∈ (f.scripts root).flatMap f.postorder) :
    f.Has r ∧ ∃ s ∈ f.scripts root, f.Reaches s r := by
  have ⟨s, hs, hx⟩ := List.mem_flatMap.mp hx
  have has := has_of_kind? (kind?_of_mem_scripts hs)
  have contains := (v.mem_postorder has.ne_none).mp hx
  have hr := contains.has has
  exact ⟨hr, s, hs, (v.reaches_iff has.ne_none hr.ne_none).mpr contains⟩

-- The nodes that are counted are fewer than all nodes, as the root is not among them.
theorem length_lt_of_visits {nodes : List Ref} (v : f.Valid) (unique : nodes.Nodup)
    (visits : ∀ x ∈ nodes, x ∈ (f.scripts root).flatMap f.postorder)
    (top : f.kind? root = some .script ∨ f.kind? root = some .root)
    (other : ∀ x ∈ nodes, f.kind? x ≠ some .script ∧ f.kind? x ≠ some .root) : nodes.length < f.size := by
  refine length_lt_size unique (fun x hx => (reached_of_mem_visits v (visits x hx)).left)
    (top.elim has_of_kind? has_of_kind?) fun hx => ?_
  have ⟨script, root⟩ := other _ hx
  exact top.elim script root

-- Every change is made at a node of its own.
theorem Log.ncard_sites (unique : (log.map Change.site).Nodup) (select : Change → Bool) :
    {r | ∃ c ∈ log, select c ∧ c.site = r}.ncard = log.countP select := by
  have sites : {r | ∃ c ∈ log, select c ∧ c.site = r} = ((log.filter select).map Change.site).toFinset := by
    ext r
    simp [and_assoc]
  have unique := unique.sublist ((List.filter_sublist (p := select)).map Change.site)
  rw [sites, Set.ncard_coe_finset, List.toFinset_card_of_nodup unique, List.length_map,
    List.countP_eq_length_filter]

namespace Toured

variable (h : Toured f ss log g)
include h

theorem unique : (log.map Change.site).Nodup :=
  h.nodup.sublist h.sites

theorem site_mem {c : Change} (hc : c ∈ log) : c.site ∈ ss.flatMap f.postorder :=
  h.sites.subset (List.mem_map_of_mem hc)

theorem kind?_site {c : Change} (hc : c ∈ log) :
    f.kind? c.site = some .function ∨ f.kind? c.site = some .expressionStatement := by
  cases c
  case promotion => exact .inl (h.progress.promoted hc).kind
  case merge => exact .inr (h.progress.merged hc).view.statement

theorem detached_iff (v : f.Valid) : Detached f g r ↔ ∃ c ∈ log, c.isMerge ∧ c.site = r := by
  constructor
  case mp =>
    intro detached
    have ⟨m, member, hm, e⟩ := detached.merged h.progress v
    exact ⟨_, hm, rfl, e⟩
  case mpr =>
    intro ⟨c, hc, isMerge, e⟩
    cases c
    case promotion => cases isMerge
    case merge => exact e ▸ h.moved.detached h.progress hc

theorem replaced_iff (v : f.Valid) :
    (∃ cls, Replaced f g r cls) ↔ ∃ c ∈ log, c.isPromotion ∧ c.site = r := by
  constructor
  case mp =>
    intro ⟨cls, replaced⟩
    have ⟨cls, hm⟩ := replaced.promoted h.progress v
    exact ⟨_, hm, rfl, rfl⟩
  case mpr =>
    intro ⟨c, hc, isPromotion, e⟩
    cases c
    case promotion r cls => exact ⟨cls, e ▸ h.moved.replaced h.progress v h.unique hc⟩
    case merge => cases isPromotion

-- What a change has been made at is no longer what it was.
theorem eq_nil_of_eq (v : f.Valid) (same : g = f) : log = [] := by
  refine List.eq_nil_iff_forall_not_mem.mpr fun c hc => ?_
  cases c
  case promotion r cls =>
    have replaced := h.moved.replaced h.progress v h.unique hc
    exact replaced.parts (same ▸ replaced.emptied)
  case merge m member =>
    have ⟨onScript, _, free⟩ := h.moved.detached h.progress hc
    rw [same] at free
    exact (has_of_kind? onScript).ne_none free

end Toured

-- The counts say what has been done. In the end they are all below the number of nodes, so that no sum on the
-- way can have been too large.
theorem counters_exact (h : f.check = .ok ()) (ok : f.convert options root = (.ok summary, g)) :
    let stats := summary.stats
    stats.codeChanges = stats.classesPromoted + stats.membersMerged ∧
    stats.classesPromoted = {r | (∃ s ∈ f.scripts root, f.Reaches s r) ∧ ∃ cls, Replaced f g r cls}.ncard ∧
    stats.membersMerged = {r | Detached f g r}.ncard ∧
    stats.classesRegistered = ((f.registries options root).map (·.names.toFinset.card)).sum ∧
    (summary.changed = false ↔ g = f) ∧
    stats.codeChanges < f.size ∧ stats.classesPromoted < f.size ∧ stats.membersMerged < f.size ∧
      stats.classesRegistered < f.size := by
  have v := valid_of_check h
  have series := series_of_ok v ok
  have toured := series.toured
  have counted := series.counted
  have top := root_of_ok ok
  have total := counted.changes_eq
  have changes : summary.stats.codeChanges < f.size := by
    rw [counted.changes, ← List.length_map Change.site]
    refine length_lt_of_visits v toured.unique (fun x hx => toured.sites.subset hx) top fun x hx => ?_
    have ⟨c, hc, e⟩ := List.mem_map.mp hx
    rcases toured.kind?_site hc with kind | kind <;> simp [← e, kind]
  have registered : summary.stats.classesRegistered < f.size := by
    refine Nat.lt_of_le_of_lt counted.registered <| length_lt_of_visits v (toured.nodup.filter _)
      (fun x hx => (mem_definitions.mp hx).left) top fun x hx => ?_
    rcases isDefinition_iff.mp (mem_definitions.mp hx).right with kind | ⟨kind, _⟩ <;> simp [kind]
  refine ⟨total, ?promoted, ?merged, registered_of_ok v ok, ?changed, changes, by omega, by omega, registered⟩
  case promoted =>
    rw [counted.promotions, ← Log.ncard_sites toured.unique]
    congr 1
    ext r
    have iff := toured.replaced_iff v (r := r)
    refine ⟨fun promoted => ⟨?_, iff.mpr promoted⟩, fun h => iff.mp h.right⟩
    have ⟨c, hc, _, e⟩ := promoted
    exact e ▸ (reached_of_mem_visits v (toured.site_mem hc)).right
  case merged =>
    rw [counted.merges, ← Log.ncard_sites toured.unique]
    congr 1
    ext r
    exact (toured.detached_iff v).symm
  case changed =>
    rw [counted.changed_eq_false]
    exact ⟨counted.idle, toured.eq_nil_of_eq v⟩

theorem counters_exact_sample :
    let summary := (sample.foldScript {} (some 0)).2.summary
    summary.stats = { codeChanges := 2, classesPromoted := 1, membersMerged := 1, classesRegistered := 1 } ∧
    {r | (∃ s ∈ sample.scripts (some 0), sample.Reaches s r) ∧
      ∃ cls, Replaced sample (sample.foldScript {} (some 0)).2.forest r cls}.ncard = 1 := by
  have ⟨_, promoted, _⟩ := counters_exact sample_check sample_convert
  exact ⟨rfl, promoted.symm.trans rfl⟩

end ClassLift
