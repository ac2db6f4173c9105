import ClassLift.Proofs.Convert.Fold
import ClassLift.Proofs.Convert.Names

/-!
Definitions of classes. The first one of a name, in the order of the visits, is the one that is
known, and every later one is a finding. Both can be told from the original tree.
-/

namespace ClassLift

namespace Forest

-- A class, or a function with the documentation of a constructor.
def isDefinition (f : Forest) (r : Ref) : Bool :=
  f.isKind r .classDefinition || f.isKind r .function && (f.constructorDoc? r).isSome

def definitions (f : Forest) (order : List Ref) : List Ref :=
  order.filter f.isDefinition

-- The definition that comes first with a name.
def firstOf? (f : Forest) (order : List Ref) (name : String) : Option Ref :=
  (f.definitions order).find? (f.nearestName? · == some name)

def isFirst (f : Forest) (order : List Ref) (r : Ref) : Bool :=
  (f.nearestName? r).any (f.firstOf? order · == some r)

-- A definition is not accepted if another one has its name before.
def isRepeated (f : Forest) (order : List Ref) (r : Ref) : Bool :=
  (f.nearestName? r).isSome && !f.isFirst order r

variable {f : Forest} {order : List Ref} {r x : Ref} {name : String}

theorem mem_definitions : r ∈ f.definitions order ↔ r ∈ order ∧ f.isDefinition r := by
  simp [definitions]

theorem isDefinition_iff : f.isDefinition r ↔
    f.kind? r = some .classDefinition ∨ f.kind? r = some .function ∧ (f.constructorDoc? r).isSome := by
  simp [isDefinition, isKind_iff]

theorem mem_of_firstOf? (h : f.firstOf? order name = some r) :
    r ∈ f.definitions order ∧ f.nearestName? r = some name :=
  ⟨List.mem_of_find?_eq_some h, by simpa using List.find?_some h⟩

theorem firstOf?_isSome (hr : r ∈ f.definitions order) (hn : f.nearestName? r = some name) :
    (f.firstOf? order name).isSome :=
  List.find?_isSome.mpr ⟨r, hr, by simp [hn]⟩

theorem isFirst_iff : f.isFirst order r ↔
    ∃ name, f.nearestName? r = some name ∧ f.firstOf? order name = some r := by
  simp [isFirst, Option.any_eq_true]

theorem definitions_concat_of_not (h : f.isDefinition r = false) :
    f.definitions (order ++ [r]) = f.definitions order := by
  simp [definitions, h]

theorem definitions_concat (h : f.isDefinition r) :
    f.definitions (order ++ [r]) = f.definitions order ++ [r] := by
  simp [definitions, h]

theorem firstOf?_concat (h : f.isDefinition r) : f.firstOf? (order ++ [r]) name =
    (f.firstOf? order name).or (if f.nearestName? r = some name then some r else none) := by
  rw [firstOf?, definitions_concat h, List.find?_append, ← firstOf?]
  by_cases hn : f.nearestName? r = some name <;> simp [hn]

theorem firstOf?_append_of_some {more : List Ref} (hx : f.firstOf? order name = some x) :
    f.firstOf? (order ++ more) name = some x := by
  rw [firstOf?, definitions, List.filter_append, List.find?_append, ← definitions, ← firstOf?, hx,
    Option.some_or]

-- Whether a definition is the first of its name does not depend on what comes after it.
theorem isFirst_concat_of_mem (hx : x ∈ f.definitions order) :
    f.isFirst (order ++ [r]) x = f.isFirst order x := by
  unfold isFirst
  cases hn : f.nearestName? x
  case none => rfl
  case some name =>
    obtain ⟨y, hy⟩ := Option.isSome_iff_exists.mp <| firstOf?_isSome hx hn
    simp [hy, firstOf?_append_of_some hy]

theorem isFirst_concat_self (h : f.isDefinition r) (hr : r ∉ order)
    (hn : f.nearestName? r = some name) :
    f.isFirst (order ++ [r]) r = (f.firstOf? order name).isNone := by
  rw [isFirst, hn, Option.any_some, firstOf?_concat h, hn, if_pos rfl]
  cases hx : f.firstOf? order name
  case none => simp
  case some x =>
    have hx := (mem_definitions.mp (mem_of_firstOf? hx).left).left
    have : x ≠ r := fun e => hr (e ▸ hx)
    simp [this]

theorem isRepeated_concat_of_mem (hx : x ∈ f.definitions order) :
    f.isRepeated (order ++ [r]) x = f.isRepeated order x := by
  rw [isRepeated, isFirst_concat_of_mem hx, isRepeated]

-- A selection of the definitions only grows if it takes the new one.
theorem filter_definitions_concat {select : List Ref → Ref → Bool} (h : f.isDefinition r)
    (hs : ∀ x ∈ f.definitions order, select (order ++ [r]) x = select order x) :
    (f.definitions (order ++ [r])).filter (select (order ++ [r])) =
      (f.definitions order).filter (select order) ++
        if select (order ++ [r]) r then [r] else [] := by
  rw [definitions_concat h, List.filter_append, List.filter_congr hs]
  congr 1
  by_cases h : select (order ++ [r]) r <;> simp [h]

end Forest

open Forest Workspace

variable {f : Forest} {done : List Ref} {log log' : Log} {w w' : Workspace} {r x : Ref} {name : String}
variable {options : Options} {change : Option Change}

-- What is known, and what has been found, after the visits of `done`.
structure Defined (f : Forest) (done : List Ref) (log : Log) (w : Workspace) : Prop where
  lookup   : ∀ name, w.registry.lookup? name = (f.firstOf? done name).map log.image
  entries  : w.registry.entries = ((f.definitions done).filter (f.isFirst done)).filterMap fun r =>
    (f.nearestName? r).map (·, log.image r)
  findings : w.findings.filter (·.problem = .classRedefined) =
    ((f.definitions done).filter (f.isRepeated done)).filterMap fun r =>
      (f.nearestName? r).map (Finding.at f .classRedefined r)
  promoted : ∀ x, (∃ cls, .promotion x cls ∈ log) ↔ x ∈ f.definitions done ∧
    f.kind? x = some .function ∧ f.isRepeated done x = false

namespace Defined

theorem start (f : Forest) : Defined f [] [] { forest := f } where
  lookup _   := rfl
  entries    := rfl
  findings   := rfl
  promoted x := by simp [definitions]

theorem of_lookup? (d : Defined f done log w) {cls : Ref} (h : w.registry.lookup? name = some cls) :
    ∃ r, f.firstOf? done name = some r ∧ log.image r = cls := by
  rw [d.lookup] at h
  exact Option.map_eq_some_iff.mp h

theorem of_mem_entries (d : Defined f done log w) {cls : Ref}
    (h : (name, cls) ∈ w.registry.entries) :
    ∃ r, f.firstOf? done name = some r ∧ log.image r = cls := by
  rw [d.entries] at h
  obtain ⟨r, hr, h⟩ := List.mem_filterMap.mp h
  obtain ⟨name', hn, e⟩ := Option.map_eq_some_iff.mp h
  cases e
  obtain ⟨name'', hn', hf⟩ := isFirst_iff.mp (List.mem_filter.mp hr).right
  cases hn.symm.trans hn'
  exact ⟨r, hf, rfl⟩

-- A function that defines a name has become a class.
theorem cls?_of_first (d : Defined f done log w) (h : f.firstOf? done name = some r)
    (hk : f.kind? r = some .function) : ∃ cls, log.cls? r = some cls := by
  have ⟨mem, hn⟩ := mem_of_firstOf? h
  have first : f.isFirst done r := isFirst_iff.mpr ⟨name, hn, h⟩
  obtain ⟨cls, hm⟩ := (d.promoted r).mpr ⟨mem, hk, by simp [isRepeated, first]⟩
  exact Option.isSome_iff_exists.mp (Log.cls?_isSome hm)

-- The images of the nodes that have been visited stay.
structure Keeps (done : List Ref) (r : Ref) (log log' : Log) : Prop where
  image    : ∀ x ∈ done, log'.image x = log.image x
  promoted : ∀ {x}, x ≠ r → ((∃ cls, .promotion x cls ∈ log') ↔ ∃ cls, .promotion x cls ∈ log)

theorem Keeps.filterMap {α : Type} (k : Keeps done r log log') {select : Ref → Bool}
    (h : String → Ref → α) :
    ((f.definitions done).filter select).filterMap
        (fun x => (f.nearestName? x).map (h · (log'.image x))) =
      ((f.definitions done).filter select).filterMap
        (fun x => (f.nearestName? x).map (h · (log.image x))) := by
  refine List.filterMap_congr fun x hx => ?_
  rw [k.image x (mem_definitions.mp (List.mem_filter.mp hx).left).left]

theorem lookup_keep (d : Defined f done log w) (k : Keeps done r log log') (name : String) :
    (f.firstOf? done name).map log'.image = w.registry.lookup? name := by
  rw [d.lookup]
  refine Option.map_congr fun x hx => ?_
  exact k.image x (mem_definitions.mp (mem_of_firstOf? hx).left).left

section Step

variable (d : Defined f done log w) (k : Keeps done r log log') (hr : r ∉ done)
variable (registry : w'.registry = w.registry)
include d k hr

include registry in
-- A node that is no definition changes nothing.
theorem other (h : f.isDefinition r = false)
    (findings : w'.findings.filter (·.problem = .classRedefined) =
      w.findings.filter (·.problem = .classRedefined))
    (promoted : ¬∃ cls, .promotion r cls ∈ log') : Defined f (done ++ [r]) log' w' := by
  have defs : f.definitions (done ++ [r]) = f.definitions done := definitions_concat_of_not h
  have firstOf? : f.firstOf? (done ++ [r]) = f.firstOf? done := by
    funext name
    rw [Forest.firstOf?, defs, Forest.firstOf?]
  have isFirst : f.isFirst (done ++ [r]) = f.isFirst done := by
    funext x
    rw [Forest.isFirst, firstOf?, Forest.isFirst]
  have isRepeated : f.isRepeated (done ++ [r]) = f.isRepeated done := by
    funext x
    rw [Forest.isRepeated, isFirst, Forest.isRepeated]
  refine ⟨fun name => ?lookup, ?entries, ?findings, fun x => ?promoted⟩
  case lookup => rw [firstOf?, registry, d.lookup_keep k]
  case entries => rw [defs, isFirst, registry, d.entries, k.filterMap]
  case findings => rw [defs, isRepeated, findings, d.findings]
  case promoted =>
    rw [defs, isRepeated]
    by_cases hx : x = r
    case pos =>
      subst hx
      simp [promoted, mem_definitions, hr]
    case neg => rw [k.promoted hx, d.promoted]

theorem promoted_concat (h : f.isDefinition r)
    (promoted : (∃ cls, .promotion r cls ∈ log') ↔
      f.kind? r = some .function ∧ f.isRepeated (done ++ [r]) r = false) (x : Ref) :
    (∃ cls, .promotion x cls ∈ log') ↔ x ∈ f.definitions (done ++ [r]) ∧
      f.kind? x = some .function ∧ f.isRepeated (done ++ [r]) x = false := by
  rw [definitions_concat h, List.mem_append, List.mem_singleton]
  by_cases hx : x = r
  case pos =>
    subst hx
    rw [promoted]
    simp
  case neg =>
    rw [k.promoted hx, d.promoted, or_iff_left hx]
    exact and_congr_right fun hm => by rw [isRepeated_concat_of_mem hm]

include registry in
theorem unnamed (h : f.isDefinition r) (hn : f.nearestName? r = none)
    (findings : w'.findings = w.findings)
    (promoted : (∃ cls, .promotion r cls ∈ log') ↔ f.kind? r = some .function) :
    Defined f (done ++ [r]) log' w' := by
  have first : f.isFirst (done ++ [r]) r = false := by simp [isFirst, hn]
  have repeated : f.isRepeated (done ++ [r]) r = false := by simp [isRepeated, hn]
  refine ⟨fun name => ?lookup, ?entries, ?findings,
    d.promoted_concat k hr h (by simp [promoted, repeated])⟩
  case lookup => simp [firstOf?_concat h, hn, registry, d.lookup_keep k]
  case entries =>
    rw [filter_definitions_concat h fun _ => isFirst_concat_of_mem, first, registry, d.entries]
    simp [k.filterMap]
  case findings =>
    rw [filter_definitions_concat h fun _ => isRepeated_concat_of_mem, repeated, findings,
      d.findings]
    simp

theorem first (h : f.isDefinition r) (hn : f.nearestName? r = some name)
    (free : w.registry.lookup? name = none)
    (registry : w'.registry = { entries := w.registry.entries ++ [(name, log'.image r)] })
    (findings : w'.findings = w.findings)
    (promoted : (∃ cls, .promotion r cls ∈ log') ↔ f.kind? r = some .function) :
    Defined f (done ++ [r]) log' w' := by
  have new : f.firstOf? done name = none := by simpa [d.lookup] using free
  have first : f.isFirst (done ++ [r]) r := by simp [isFirst_concat_self h hr hn, new]
  have repeated : f.isRepeated (done ++ [r]) r = false := by simp [isRepeated, first]
  refine ⟨fun other => ?lookup, ?entries, ?findings,
    d.promoted_concat k hr h (by simp [promoted, repeated])⟩
  case lookup =>
    rw [registry, Registry.lookup?_concat, firstOf?_concat h, Option.map_or, d.lookup_keep k, hn]
    by_cases e : name = other <;> simp [e]
  case entries =>
    rw [filter_definitions_concat h fun _ => isFirst_concat_of_mem, if_pos first, registry, d.entries]
    simp [k.filterMap, hn]
  case findings =>
    rw [filter_definitions_concat h fun _ => isRepeated_concat_of_mem, repeated, findings,
      d.findings]
    simp

include registry in
theorem again (h : f.isDefinition r) (hn : f.nearestName? r = some name)
    (taken : w.registry.lookup? name ≠ none)
    (findings : w'.findings = w.findings ++ [.at f .classRedefined r name])
    (promoted : ¬∃ cls, .promotion r cls ∈ log') : Defined f (done ++ [r]) log' w' := by
  have old : f.firstOf? done name ≠ none := by simpa [d.lookup] using taken
  have first : f.isFirst (done ++ [r]) r = false := by
    rw [isFirst_concat_self h hr hn, Option.isNone_eq_false_iff, Option.isSome_iff_ne_none]
    exact old
  have repeated : f.isRepeated (done ++ [r]) r := by simp [isRepeated, first, hn]
  refine ⟨fun other => ?lookup, ?entries, ?findings,
    d.promoted_concat k hr h (by simp [promoted, repeated])⟩
  case lookup =>
    rw [registry, firstOf?_concat h, Option.map_or, d.lookup_keep k, hn]
    by_cases e : name = other
    case pos =>
      obtain ⟨cls, hc⟩ := Option.ne_none_iff_exists'.mp taken
      simp [← e, hc]
    case neg => simp [e]
  case entries =>
    rw [filter_definitions_concat h fun _ => isFirst_concat_of_mem, first, registry, d.entries]
    simp [k.filterMap]
  case findings =>
    rw [filter_definitions_concat h fun _ => isRepeated_concat_of_mem, if_pos repeated, findings,
      List.filter_append, d.findings]
    simp [hn, Finding.at]

end Step

theorem Keeps.of_visited (p : Progress f done log w) (hr : r ∉ done)
    (h : w.Visited options r change w') : Keeps done r log (log ++ change.toList) := by
  rcases h.change_cases with rfl | ⟨cls, rfl⟩ | ⟨m, member, rfl, -⟩
  case inl => constructor <;> simp
  case inr.inl =>
    refine ⟨fun x hx => ?_, fun {x} hx => by simp [hx]⟩
    have hn : x ≠ r := fun e => hr (e ▸ hx)
    rw [Option.toList_some, Log.image_promotion (p.cls?_none hr), if_neg hn]
  case inr.inr => exact ⟨fun x _ => by rw [Option.toList_some, Log.image_merge], by simp⟩

theorem step (d : Defined f done log w) (p : Progress f done log w) (v : f.Valid) (hf : f.Has r)
    (hr : r ∉ done) (h : w.Visited options r change w') :
    Defined f (done ++ [r]) (log ++ change.toList) w' := by
  have k := Keeps.of_visited p hr h
  have fresh : ¬∃ cls, .promotion r cls ∈ log := fun ⟨_, h⟩ => hr (p.promoted h).visited
  have not_def {k : Kind} (hk : w.forest.kind? r = some k) (hc : k ≠ .classDefinition)
      (hn : k ≠ .function) : f.isDefinition r = false := by
    simp [isDefinition, isKind, p.kind?_eq hf hk, hc, hn]
  cases h
  case pass kind =>
    rw [p.ext.kind? hf] at kind
    simp only [List.mem_cons, List.not_mem_nil, or_false, not_or] at kind
    have other : f.isDefinition r = false := by simp [isDefinition, isKind, kind.left, kind.right]
    exact d.other k hr rfl other rfl (by simpa using fresh)
  case statement kind _ => exact d.other k hr rfl (not_def kind (by simp) (by simp)) rfl (by simpa using fresh)
  case plain kind plain =>
    rw [p.constructorDoc?_eq v hf hr] at plain
    have other : f.isDefinition r = false := by simp [isDefinition, isKind, p.kind?_eq hf kind, plain]
    exact d.other k hr rfl other rfl (by simpa using fresh)
  case method m member of view onScript isMethod ok =>
    have other := not_def (of ▸ view.statement) (by simp) (by simp)
    cases ok
    case stays => exact d.other k hr rfl other rfl (by simpa using fresh)
    case unknown => exact d.other k hr rfl other (by simp [report, note, Finding.at]) (by simpa using fresh)
    case joins => exact d.other k hr rfl other rfl (by simpa using fresh)
  case cls kind =>
    have hk := p.kind?_eq hf kind
    have def_r : f.isDefinition r := isDefinition_iff.mpr (.inl hk)
    have promoted : (∃ cls, .promotion r cls ∈ log ++ (none : Option Change).toList) ↔
        f.kind? r = some .function := by simpa [hk] using fresh
    have image : Log.image (log ++ (none : Option Change).toList) r = r := by
      rw [Option.toList_none, List.append_nil, Log.image_of_none (p.cls?_none hr)]
    rw [p.nearestName?_eq v hr (by simp [hk])]
    cases hn : f.nearestName? r
    case none => exact d.unnamed k hr rfl def_r hn rfl promoted
    case some name =>
      cases hl : w.registry.lookup? name
      case none =>
        refine d.first k hr def_r hn hl ?_ ?_ promoted <;> rw [define_of_free hl]
        rw [image]
      case some cls =>
        rw [define_of_taken hl, report, p.finding_eq v hf hr]
        exact d.again k hr rfl def_r hn (by simp [hl]) rfl (by simpa using fresh)
  case constructor doc cls kind documented ok =>
    have hk := p.kind?_eq hf kind
    have def_r : f.isDefinition r := isDefinition_iff.mpr <| .inr
      ⟨hk, by rw [← p.constructorDoc?_eq v hf hr, documented]; rfl⟩
    have name := p.nearestName?_eq v hr (by simp [hk])
    cases ok
    case refused taken =>
      rw [refusal?, name] at taken
      obtain ⟨n, hn, taken⟩ := Option.bind_eq_some_iff.mp taken
      cases hl : w.registry.lookup? n
      case none => simp [Registry.refusal?_of_free hl] at taken
      case some =>
        rw [Registry.refusal?_of_taken hl, p.finding_eq v hf hr, Option.some.injEq] at taken
        subst taken
        exact d.again k hr rfl def_r hn (by simp [hl]) rfl (by simpa using fresh)
    case promoted q g free ofFunction promotes =>
      subst ofFunction
      have promoted : (∃ cls, .promotion q.function cls ∈
          log ++ (Option.map (Change.promotion q.function) (some q.cls)).toList) ↔
          f.kind? q.function = some .function := by simp [hk]
      have image : Log.image (log ++ [.promotion q.function q.cls]) q.function = q.cls := by
        rw [Log.image_promotion (p.cls?_none hr), if_pos rfl]
      rw [name]
      cases hn : f.nearestName? q.function
      case none => exact d.unnamed k hr rfl def_r hn rfl promoted
      case some n =>
        have hl : w.registry.lookup? n = none := by
          rw [refusal?, name, hn, Option.bind_some] at free
          by_contra h
          obtain ⟨cls, h⟩ := Option.ne_none_iff_exists'.mp h
          simp [Registry.refusal?_of_taken h] at free
        have hl' : ({ w with forest := g } : Workspace).countPromotion.registry.lookup? n = none := hl
        refine d.first k hr def_r hn hl ?_ ?_ promoted <;> rw [define_of_free hl']
        · rw [Option.map_some, Option.toList_some, image]
          rfl
        · rfl

end Defined

theorem Run.defined {script : Ref} {rest : List Ref} (run : Run options f done log w) (v : f.Valid)
    (hs : f.Has script) (h : f.postorder script = done ++ rest) : Defined f done log w := by
  refine run.invariant v hs h (.start f) fun order run d visited => ?_
  have t := turn_of_postorder v hs order
  exact d.step (run.progress v hs order) v t.has t.fresh visited

-- No definition repeats the name of another.
def Forest.IsUnambiguous (f : Forest) (order : List Ref) : Prop :=
  ∀ r ∈ f.definitions order, f.isRepeated order r = false

theorem Forest.IsUnambiguous.firstOf?_eq {order : List Ref} {name : String} (u : f.IsUnambiguous order)
    (hr : r ∈ f.definitions order) (hn : f.nearestName? r = some name) :
    f.firstOf? order name = some r := by
  have first : f.isFirst order r := by simpa [isRepeated, hn] using u r hr
  obtain ⟨name', hn', first⟩ := isFirst_iff.mp first
  exact Option.some.inj (hn.symm.trans hn') ▸ first

theorem Forest.IsUnambiguous.eq_of_name {order : List Ref} {name : String} (u : f.IsUnambiguous order)
    (hr : r ∈ f.definitions order) (hx : x ∈ f.definitions order) (hn : f.nearestName? r = some name)
    (hn' : f.nearestName? x = some name) : x = r :=
  Option.some.inj ((u.firstOf?_eq hx hn').symm.trans (u.firstOf?_eq hr hn))

-- It does not matter where the visits stop, as long as they have come to the definition.
theorem Forest.IsUnambiguous.firstOf?_of_isPrefix {order before : List Ref} {name : String}
    (u : f.IsUnambiguous order) (hp : before <+: order) (hr : r ∈ f.definitions before)
    (hn : f.nearestName? r = some name) : f.firstOf? before name = some r := by
  obtain ⟨after, rfl⟩ := hp
  obtain ⟨x, hx⟩ := Option.isSome_iff_exists.mp (firstOf?_isSome hr hn)
  have ⟨visited, definition⟩ := mem_definitions.mp hr
  have first := u.firstOf?_eq (mem_definitions.mpr ⟨List.mem_append_left _ visited, definition⟩) hn
  rw [firstOf?_append_of_some hx] at first
  exact hx.trans first

theorem Forest.isUnambiguous_of_inj {order : List Ref} (inj : ∀ {r x name}, r ∈ f.definitions order →
    x ∈ f.definitions order → f.nearestName? r = some name → f.nearestName? x = some name → x = r) :
    f.IsUnambiguous order := by
  intro r hr
  cases hn : f.nearestName? r
  case none => simp [isRepeated, hn]
  case some name =>
    obtain ⟨x, hx⟩ := Option.isSome_iff_exists.mp (firstOf?_isSome hr hn)
    have ⟨definition, named⟩ := mem_of_firstOf? hx
    obtain rfl := inj hr definition hn named
    simp [isRepeated, isFirst, hn, hx]

-- A definition that repeats a name is found.
theorem Defined.isUnambiguous (d : Defined f done log w)
    (h : ∀ finding ∈ w.findings, finding.problem ≠ .classRedefined) : f.IsUnambiguous done := by
  intro r hr
  refine Bool.eq_false_iff.mpr fun repeated => ?_
  obtain ⟨name, hn⟩ := Option.isSome_iff_exists.mp (Bool.and_eq_true _ _ ▸ repeated).left
  have found : Finding.at f .classRedefined r name ∈ w.findings.filter (·.problem = .classRedefined) := by
    rw [d.findings, List.mem_filterMap]
    exact ⟨r, List.mem_filter.mpr ⟨hr, repeated⟩, by simp [hn]⟩
  exact h _ (List.mem_filter.mp found).left rfl

end ClassLift
