import ClassLift.Proofs.Convert.Determined
import ClassLift.Proofs.Convert.Whole
import Mathlib.Data.List.Forall2

/-!
The classes of two conversions, member by member. If only one of them merges static members, both merge the
same of the other statements, each into the same class and in the same order.
-/

namespace ClassLift

open Forest

variable {options : Options} {f g g' : Forest} {r r' x c cls : Ref} {ss cs cs' : List Ref}
variable {log log' : Log} {m m' : MemberAssignment} {member : Ref} {summary summary' : Summary}

/- The merges of a conversion -/

-- A method and the member that it has become.
abbrev Merge := MemberAssignment × Ref

namespace Log

def merges (log : Log) : List Merge :=
  log.filterMap fun
    | .promotion .. => none
    | .merge m member => some (m, member)

def staticMembers (log : Log) (f : Forest) : List Ref :=
  (log.merges.filter (·.1.isStatic f)).map (·.2)

theorem mem_merges {p : Merge} : p ∈ log.merges ↔ .merge p.1 p.2 ∈ log := by
  rw [merges, List.mem_filterMap]
  constructor
  case mp =>
    rintro ⟨⟨⟩ | ⟨m, member⟩, hm, e⟩ <;> cases e
    exact hm
  case mpr => exact fun hm => ⟨_, hm, rfl⟩

theorem map_members : log.merges.map (·.2) = log.members := by
  rw [merges, List.map_filterMap, members]
  refine List.filterMap_congr fun c _ => ?_
  cases c <;> rfl

theorem map_members_filter (log : Log) (g : Forest) (list : Ref) :
    (log.merges.filter (g.parent ·.2 = list)).map (·.2) = log.members.filter (g.parent · = list) := by
  rw [← map_members, List.filter_map]
  rfl

theorem map_statements : log.merges.map (·.1.statement) = log.statements := by
  rw [merges, List.map_filterMap, statements]
  refine List.filterMap_congr fun c _ => ?_
  cases c <;> rfl

theorem mem_staticMembers : c ∈ log.staticMembers f ↔ ∃ m, .merge m c ∈ log ∧ m.isStatic f := by
  simp only [staticMembers, List.mem_map, List.mem_filter, mem_merges]
  constructor
  case mp =>
    rintro ⟨⟨m, c⟩, hm, rfl⟩
    exact ⟨m, hm⟩
  case mpr => exact fun ⟨m, hm⟩ => ⟨(m, c), hm, rfl⟩

end Log

-- The methods can be told from their statements.
theorem eq_of_map_statement {ms ms' : List MemberAssignment} (views : ∀ m ∈ ms, m.IsView f)
    (views' : ∀ m ∈ ms', m.IsView f) (same : ms.map (·.statement) = ms'.map (·.statement)) :
    ms = ms' := by
  have read {ms : List MemberAssignment} (views : ∀ m ∈ ms, m.IsView f) :
      (ms.map (·.statement)).filterMap (MemberAssignment.ofStatement? f) = ms := by
    rw [List.filterMap_map]
    refine (List.filterMap_congr fun m hm => ?_).trans List.filterMap_some
    exact MemberAssignment.ofStatement?_eq_some.mpr ⟨rfl, views m hm⟩
  rw [← read views, same, read views']

/- The list of a class -/

namespace Whole

variable (h : Whole f g ss log) (v : f.Valid)
include h v

theorem merge_inj (hm : .merge m member ∈ log) (hm' : .merge m' member ∈ log) : m = m' := by
  have value : m.value = m'.value := by
    simpa using (h.members hm).below.symm.trans (h.members hm').below
  have q := h.progress.merged hm
  have q' := h.progress.merged hm'
  refine q.view.unique q'.view ?_
  rw [← q.parent_assignment v, ← q.parent_value v, value, q'.parent_value v, q'.parent_assignment v]

theorem not_mem_staticMembers (hm : .merge m member ∈ log) :
    member ∉ log.staticMembers f ↔ m.isStatic f = false := by
  rw [Log.mem_staticMembers, ← Bool.not_eq_true, not_iff_not]
  constructor
  case mp =>
    intro ⟨m', hm', isStatic⟩
    rwa [h.merge_inj v hm hm']
  case mpr => exact fun isStatic => ⟨m, hm, isStatic⟩

-- What a class has of its own does not come from a statement.
theorem not_merged_of_own (own : OwnMembers f g log r cs) (hc : c ∈ cs) : .merge m c ∉ log := by
  intro hm
  have member := h.members hm
  cases own
  case original =>
    obtain ⟨x, hx, rfl⟩ := List.mem_map.mp hc
    cases hu : log.cls? x
    case none => exact member.new <| (congrArg f.Has (Log.image_of_none hu)).mpr (v.has_child hx)
    case some cls =>
      have kind := member.kind
      rw [Log.image_of_some hu, (h.progress.promoted (Log.promotion_mem hu)).cls] at kind
      cases kind
  case promoted constructor _ first =>
    obtain rfl := List.mem_singleton.mp hc
    obtain ⟨moved, _, below, new, -⟩ := first.below
    obtain rfl : moved = m.value := by simpa using below.symm.trans member.below
    exact new (has_of_kind? (h.progress.merged hm).value)

-- A class has what is its own, and then the members that have been merged into it.
theorem exists_list (formed : f.isFormed r) (hr : f.kind? r = some .classDefinition ∨ (log.cls? r).isSome) :
    ∃ own, OwnMembers f g log r own ∧ g.children (g.members (log.image r)) =
      own ++ (log.merges.filter (g.parent ·.2 = g.members (log.image r))).map (·.2) := by
  have p := h.progress
  rw [Log.map_members_filter]
  rcases hr with hk | hu
  case inl =>
    have ⟨list, kind⟩ := p.members_original v formed hk
    refine ⟨_, .original hk, ?_⟩
    rw [p.image_eq_self hk (by simp), list]
    exact p.children_list v kind
  case inr =>
    obtain ⟨cls, hc⟩ := Option.isSome_iff_exists.mp hu
    have hm := Log.promotion_mem hc
    obtain ⟨constructor, list⟩ := h.lists hm
    refine ⟨_, .promoted (p.promoted hm).kind list.first, ?_⟩
    rw [Log.image_of_some hc, list.children]
    rfl

-- Of the statements only those that are not static count here.
theorem exists_list_filter (formed : f.isFormed r)
    (hr : f.kind? r = some .classDefinition ∨ (log.cls? r).isSome) : ∃ own, OwnMembers f g log r own ∧
      (g.children (g.members (log.image r))).filter (· ∉ log.staticMembers f) = own ++
        ((log.merges.filter (!·.1.isStatic f)).filter (g.parent ·.2 = g.members (log.image r))).map (·.2) := by
  obtain ⟨cs, own, list⟩ := h.exists_list v formed hr
  refine ⟨cs, own, ?_⟩
  rw [list, List.filter_append]
  congr 1
  · refine List.filter_eq_self.mpr fun c hc => decide_eq_true fun hm => ?_
    obtain ⟨m, hm, -⟩ := Log.mem_staticMembers.mp hm
    exact h.not_merged_of_own v own hc hm
  · rw [List.filter_map, List.filter_filter, List.filter_filter]
    refine congrArg _ (List.filter_congr fun p hp => ?_)
    have kept := h.not_mem_staticMembers v (Log.mem_merges.mp hp)
    cases hs : p.1.isStatic f <;> simp_all [Bool.and_comm]

omit v in
theorem kind_image (hr : f.kind? r = some .classDefinition ∨ (log.cls? r).isSome) :
    g.kind? (log.image r) = some .classDefinition := by
  rcases hr with hk | hu
  case inl => rw [h.progress.image_eq_self hk (by simp), h.progress.ext.kind? (has_of_kind? hk), hk]
  case inr =>
    obtain ⟨cls, hc⟩ := Option.isSome_iff_exists.mp hu
    rw [Log.image_of_some hc, (h.progress.promoted (Log.promotion_mem hc)).cls]

end Whole

/- Two conversions -/

-- A node that has below it, in both, what it had in `f`, or what that has become.
structure SameParts (f g g' : Forest) (log log' : Log) (x : Ref) : Prop where
  parts  : g.children x = (f.children x).map log.image
  parts' : g'.children x = (f.children x).map log'.image

-- Members in `g` and in `g'` that are the same function of `f` under the same name. A function in a member
-- that has always been there may have become a class in both.
inductive SameMember (f g g' : Forest) (log log' : Log) : Ref → Ref → Prop
  | kept {r : Ref} (text : g.text? (log.image r) = f.text? r ∧ g'.text? (log'.image r) = f.text? r)
    (below : f.kind? r = some .memberFunction → SameParts f g g' log log' r ∧
      ∀ x ∈ f.children r, SameParts f g g' log log' x ∨ (log.cls? x).isSome ∧ (log'.cls? x).isSome) :
    SameMember f g g' log log' (log.image r) (log'.image r)
  | merged {m : MemberAssignment} {c c' : Ref} (member : IsMember f g m c) (member' : IsMember f g' m c')
    (below : SameParts f g g' log log' m.value) : SameMember f g g' log log' c c'
  | constructor {r c c' : Ref} (first : IsConstructor f g r c) (first' : IsConstructor f g' r c') :
    SameMember f g g' log log' c c'

-- The class that `r` is, or has become, in both. The first one may have static members that the other one
-- does not have.
structure SameClass (f g g' : Forest) (log log' : Log) (r : Ref) : Prop where
  kind    : g.kind? (log.image r) = some .classDefinition
  kind'   : g'.kind? (log'.image r) = some .classDefinition
  members : List.Forall₂ (SameMember f g g' log log')
    ((g.children (g.members (log.image r))).filter (· ∉ log.staticMembers f))
    (g'.children (g'.members (log'.image r)))

-- A method that both merge, into the same class.
structure SameMerge (f g g' : Forest) (log log' : Log) (p p' : Merge) : Prop where
  same    : p.1 = p'.1
  member  : IsMember f g p.1 p.2
  member' : IsMember f g' p'.1 p'.2
  home    : ∃ r, f.Has r ∧ g.parent p.2 = g.members (log.image r) ∧ g'.parent p'.2 = g'.members (log'.image r)
  inside  : g.parent p.2 ≠ none ∧ g'.parent p'.2 ≠ none
  below   : SameParts f g g' log log' p.1.value

theorem forall₂_of_map_eq {α β : Type} {R : α → α → Prop} {k : α → β} {xs ys : List α}
    (same : xs.map k = ys.map k) (h : ∀ x ∈ xs, ∀ y ∈ ys, k x = k y → R x y) : List.Forall₂ R xs ys := by
  induction xs generalizing ys
  case nil =>
    obtain rfl : ys = [] := List.map_eq_nil_iff.mp same.symm
    exact .nil
  case cons x xs ih =>
    rw [List.map_cons, eq_comm, List.map_eq_cons_iff] at same
    obtain ⟨y, ys, rfl, here, rest⟩ := same
    refine .cons (h x (by simp) y (by simp) here.symm) (ih rest.symm fun x hx y hy => ?_)
    exact h x (by simp [hx]) y (by simp [hy])

theorem text?_of_kind {k : Kind} (hk : f.kind? r = some k) (hn : k.hasText = false) : f.text? r = none := by
  rw [kind?_eq_label?] at hk
  rw [text?_eq_label?]
  cases hl : f.label? r <;> simp_all

theorem Progress.text?_image {done : List Ref} {w : Workspace} (p : Progress f done log w) (v : f.Valid)
    (hx : f.Has x) : w.forest.text? (log.image x) = f.text? x := by
  cases hu : log.cls? x
  case none => rw [Log.image_of_none hu, p.ext.text? v hx]
  case some cls =>
    have promoted := p.promoted (Log.promotion_mem hu)
    rw [Log.image_of_some hu, text?_of_kind promoted.cls rfl, text?_of_kind promoted.kind rfl]

section Switch

variable {options' : Options} (h : Passes options ss f log summary g)
variable (h' : Passes options' ss f log' summary' g') (v : f.Valid) (shaped : f.isShaped)
variable (on : options.mergeStaticMethods) (off : options'.mergeStaticMethods = false)
include h h' v

omit h h' in
theorem SameParts.of_function (h : Whole f g ss log) (h' : Whole f g' ss log')
    (hk : f.kind? x = some .function) (kept : log.cls? x = none) (kept' : log'.cls? x = none) :
    SameParts f g g' log log' x where
  parts  := h.progress.children_image v (has_of_kind? hk) kept (by simp [hk]) (by simp [hk]) (by simp [hk])
  parts' := h'.progress.children_image v (has_of_kind? hk) kept' (by simp [hk]) (by simp [hk]) (by simp [hk])

theorem OwnMembers.same (formed : ∀ x, f.isFormed x) (own : OwnMembers f g log r cs)
    (own' : OwnMembers f g' log' r cs') : List.Forall₂ (SameMember f g g' log log') cs cs' := by
  have p := h.whole.progress
  have p' := h'.whole.progress
  cases own <;> cases own'
  case original.original =>
    rw [List.forall₂_map_left_iff, List.forall₂_map_right_iff, List.forall₂_same]
    intro x hx
    have has := v.has_child hx
    refine .kept ⟨p.text?_image v has, p'.text?_image v has⟩ fun hk => ⟨⟨?_, ?_⟩, fun c hc => ?_⟩
    · exact p.children_of_kind v hk (by simp)
    · exact p'.children_of_kind v hk (by simp)
    · obtain ⟨function, only, kind⟩ := children_memberFunction (formed x) hk
      obtain rfl : c = function := by simpa [only] using hc
      have same : (log.cls? c).isSome ↔ (log'.cls? c).isSome := by
        rw [h.cls?_isSome_iff v, h'.cls?_isSome_iff v]
      by_cases hu : (log.cls? c).isSome
      case pos => exact .inr ⟨hu, same.mp hu⟩
      case neg =>
        have hu' := same.not.mp hu
        rw [Option.not_isSome_iff_eq_none] at hu hu'
        exact .inl (.of_function v h.whole h'.whole kind hu hu')
  case promoted.promoted first _ _ first' => exact .cons (.constructor first first') .nil
  case original.promoted kind _ kind' _ => cases kind.symm.trans kind'
  case promoted.original kind _ kind' => cases kind.symm.trans kind'

-- The class that a method joins can be told from the original tree.
theorem SameMerge.of_mem {p p' : Merge} (hp : p ∈ log.merges) (hp' : p' ∈ log'.merges) (same : p.1 = p'.1) :
    SameMerge f g g' log log' p p' := by
  have hm := Log.mem_merges.mp hp
  have hm' := Log.mem_merges.mp hp'
  obtain ⟨s, hs, site, className, r, ofClass, first, -, home⟩ := h.homes v hm
  obtain ⟨s', hs', site', className', r', ofClass', first', -, home'⟩ := h'.homes v hm'
  obtain rfl := h.script_unique hs hs' site (same ▸ site')
  rw [same, ofClass', Except.ok.injEq, Option.some.injEq] at ofClass
  obtain rfl := Option.some.inj <| (ofClass ▸ first').symm.trans first
  have definition := isDefinition_iff.mp (mem_definitions.mp (mem_of_firstOf? first).left).right
  have has := definition.elim has_of_kind? fun e => has_of_kind? e.left
  have q := h.whole.progress.merged hm
  have q' := h'.whole.progress.merged hm'
  have kept := h'.value_kept v hm'
  rw [← same] at kept
  exact ⟨same, h.whole.members hm, h'.whole.members hm', ⟨_, has, home, home'⟩,
    ⟨(has_of_kind? q.list).ne_none, (has_of_kind? q'.list).ne_none⟩,
    .of_function v h.whole h'.whole q.value (h.value_kept v hm) kept⟩

omit h h' in
theorem Whole.eq_members_iff (h : Whole f g ss log) {list : Ref} (hr : f.Has r) (hr' : f.Has r')
    (home : list = g.members (log.image r)) (hn : list ≠ none) : list = g.members (log.image r') ↔ r = r' := by
  constructor
  case mpr => exact fun e => e ▸ home
  case mp =>
    intro e
    exact h.progress.image_inj v h.lists hr hr' (members_inj h.progress.valid (home ▸ hn) (home.symm.trans e))

include shaped on off

theorem merged_off_iff : (∃ member, .merge m member ∈ log') ↔
    (∃ member, .merge m member ∈ log) ∧ m.isStatic f = false := by
  rw [h.merged_iff v shaped, h'.merged_iff v shaped]
  simp only [on, off, implies_true, Bool.false_eq_true, imp_false, and_true, Bool.not_eq_true]
  constructor
  · exact fun ⟨s, hs, direct, claimed, kept⟩ => ⟨⟨s, hs, direct, claimed⟩, kept⟩
  · exact fun ⟨⟨s, hs, direct, claimed⟩, kept⟩ => ⟨s, hs, direct, claimed, kept⟩

theorem mem_statements_off : x ∈ (log.merges.filter (!·.1.isStatic f)).map (·.1.statement) ↔
    x ∈ log'.merges.map (·.1.statement) := by
  simp only [List.mem_map, List.mem_filter, Log.mem_merges, Prod.exists, Bool.not_eq_true']
  constructor
  case mp =>
    intro ⟨m, member, ⟨hm, kept⟩, of⟩
    obtain ⟨member', hm'⟩ := (merged_off_iff h h' v shaped on off).mpr ⟨⟨member, hm⟩, kept⟩
    exact ⟨m, member', hm', of⟩
  case mpr =>
    intro ⟨m, member', hm', of⟩
    obtain ⟨⟨member, hm⟩, kept⟩ := (merged_off_iff h h' v shaped on off).mp ⟨member', hm'⟩
    exact ⟨m, member, ⟨hm, kept⟩, of⟩

-- The same methods are merged, and in the same order: both follow the order of the scripts.
theorem map_merges_off :
    (log.merges.filter (!·.1.isStatic f)).map (·.1) = log'.merges.map (·.1) := by
  have whole := h.whole
  have whole' := h'.whole
  refine eq_of_map_statement (f := f) (fun m hm => ?views) (fun m hm => ?views') ?statements
  case views =>
    obtain ⟨p, hp, rfl⟩ := List.mem_map.mp hm
    exact (whole.progress.merged (Log.mem_merges.mp (List.mem_filter.mp hp).left)).view
  case views' =>
    obtain ⟨p, hp, rfl⟩ := List.mem_map.mp hm
    exact (whole'.progress.merged (Log.mem_merges.mp hp)).view
  case statements =>
    rw [List.map_map, List.map_map]
    refine eq_of_sublist whole.nodup ?_ (Log.map_statements ▸ whole'.order) fun x =>
      mem_statements_off h h' v shaped on off
    exact (List.filter_sublist.map _).trans (Log.map_statements ▸ whole.order)

-- A class has the same methods from both. Where a method has gone is told by the class that it names, so
-- the lists are compared before they are sorted by class.
theorem merges_off (hr : f.Has r) : List.Forall₂ (SameMerge f g g' log log')
    ((log.merges.filter (!·.1.isStatic f)).filter (g.parent ·.2 = g.members (log.image r)))
    (log'.merges.filter (g'.parent ·.2 = g'.members (log'.image r))) := by
  have all : List.Forall₂ (SameMerge f g g' log log') (log.merges.filter (!·.1.isStatic f)) log'.merges :=
    forall₂_of_map_eq (map_merges_off h h' v shaped on off) fun p hp p' hp' same =>
      .of_mem h h' v (List.mem_filter.mp hp).left hp' same
  refine List.rel_filter (fun p p' same => ?_) all
  obtain ⟨r', has, home, home'⟩ := same.home
  dsimp only
  rw [decide_eq_true_iff, decide_eq_true_iff, h.whole.eq_members_iff v has hr home same.inside.left,
    h'.whole.eq_members_iff v has hr home' same.inside.right]

theorem sameClass (hr : f.kind? r = some .classDefinition ∨ (log.cls? r).isSome) :
    SameClass f g g' log log' r := by
  have hr' : f.kind? r = some .classDefinition ∨ (log'.cls? r).isSome := by
    rwa [h'.cls?_isSome_iff v, ← h.cls?_isSome_iff v]
  have formed := isFormed_of_isShaped shaped
  have has : f.Has r := hr.elim has_of_kind? fun hu =>
    have ⟨_, hc⟩ := Option.isSome_iff_exists.mp hu
    has_of_kind? (h.whole.progress.promoted (Log.promotion_mem hc)).kind
  obtain ⟨cs, own, list⟩ := h.whole.exists_list_filter v (formed r) hr
  obtain ⟨cs', own', list'⟩ := h'.whole.exists_list v (formed r) hr'
  refine ⟨h.whole.kind_image hr, h'.whole.kind_image hr', ?_⟩
  rw [list, list']
  refine List.rel_append (own.same h h' v formed own') ?_
  rw [List.forall₂_map_left_iff, List.forall₂_map_right_iff]
  refine (merges_off h h' v shaped on off has).imp fun p p' same => .merged same.member ?_ same.below
  rw [same.same]
  exact same.member'

end Switch

end ClassLift
