import ClassLift.Proofs.Convert.Merging
import ClassLift.Proofs.Convert.Spared

/-!
The runs over several scripts as a single one. A run that only meets what the one before it has not visited
goes on where that has ended, so that what is known of one run is known of all of them together.
-/

namespace ClassLift

open Forest

variable {options : Options} {f g : Forest} {r x c cls : Ref} {ss xs done done' : List Ref} {log log' : Log}
variable {w w' : Workspace} {m : MemberAssignment} {member : Ref} {summary : Summary}

namespace Log

theorem taken_append : taken (log ++ log') = log.taken ++ log'.taken :=
  List.flatMap_append

theorem members_append : members (log ++ log') = log.members ++ log'.members :=
  List.filterMap_append

end Log

/- Two runs, one after the other -/

-- What the second run visits is old, and nothing there has been visited.
structure Untouched (f : Forest) (done done' : List Ref) : Prop where
  has   : ∀ {x}, x ∈ done' → f.Has x
  fresh : ∀ {x}, x ∈ done' → x ∉ done
  below : ∀ {x c}, x ∈ done' → c ∈ f.children x → c ∉ done

namespace Progress

section Trans

variable (p' : Progress w.forest done' log' w') (u : Untouched f done done')
include p' u

-- What is new after the first run stays what it is in the second.
theorem cls?_none_of_new (hx : ¬f.Has x) : log'.cls? x = none :=
  p'.cls?_none fun hm => hx (u.has hm)

theorem image_new (hx : ¬f.Has x) : log'.image x = x :=
  Log.image_of_none (p'.cls?_none_of_new u hx)

theorem not_taken_of_new (hx : ¬f.Has x) : x ∉ log'.taken :=
  p'.not_taken fun hm => hx (u.has hm)

theorem map_image_new (new : ∀ x ∈ xs, ¬f.Has x) : xs.map log'.image = xs :=
  (List.map_congr_left fun x hx => p'.image_new u (new x hx)).trans (List.map_id xs)

theorem filter_taken_new (new : ∀ x ∈ xs, ¬f.Has x) : xs.filter (· ∉ log'.taken) = xs :=
  List.filter_eq_self.mpr fun x hx => decide_eq_true (p'.not_taken_of_new u (new x hx))

variable (p : Progress f done log w)
include p

theorem parent_member (h : x ∈ log.members) : w'.forest.parent x = w.forest.parent x := by
  have new := p.new_member h
  have ⟨_, list⟩ := p.has_of_mem_members h
  exact p'.parent_kept p.valid (has_of_kind? list).ne_none (p'.not_taken_of_new u new)
    (p'.cls?_none_of_new u new) (p'.cls?_none_of_kind list (by simp))

theorem image_trans : log'.image (log.image x) = Log.image (log ++ log') x := by
  rw [Log.image, Log.image, Log.image, Log.cls?_append]
  cases hc : log.cls? x
  case none => simp
  case some cls => simp [p'.cls?_none_of_new u (p.promoted (Log.promotion_mem hc)).new]

theorem mem_taken_image : log.image x ∈ log'.taken ↔ x ∈ log'.taken := by
  cases hc : log.cls? x
  case none => rw [Log.image_of_none hc]
  case some cls =>
    have promoted := p.promoted (Log.promotion_mem hc)
    rw [Log.image_of_some hc]
    exact iff_of_false (p'.not_taken_of_new u promoted.new)
      (p'.not_taken fun hm => u.fresh hm promoted.visited)

-- The members that the first run has merged stay in their lists.
theorem members_trans : log.members.filter (w.forest.parent · = r) =
    log.members.filter (w'.forest.parent · = r) :=
  List.filter_congr fun x hx => by rw [p'.parent_member u p hx]

theorem contents_trans (hr : f.Has r) :
    w'.forest.children r = Log.contents (log ++ log') f w'.forest r := by
  rw [p'.contents (p.ext.has hr), Log.contents, Log.contents, Log.cls?_append]
  cases hc : log.cls? r
  case some cls =>
    have kind : w.forest.kind? r ≠ some .classMembers := by
      rw [p.ext.kind? hr, (p.promoted (Log.promotion_mem hc)).kind]
      simp
    simp [p.contents hr, Log.contents, hc, p'.members_nil (p.ext.has hr) (.inr kind)]
  case none =>
    rw [Option.none_or]
    split
    case isTrue => rfl
    case isFalse =>
      have old : (((f.children r).filter (· ∉ log.taken)).map log.image).filter (· ∉ log'.taken) =
          ((f.children r).filter (· ∉ Log.taken (log ++ log'))).map log.image := by
        rw [List.filter_map, List.filter_filter, Log.taken_append]
        refine congrArg _ (List.filter_congr fun x _ => ?_)
        simp [p'.mem_taken_image u p, Bool.and_comm]
      have new (x : Ref) (hx : x ∈ log.members.filter (w'.forest.parent · = r)) : ¬f.Has x :=
        p.new_member (List.mem_filter.mp hx).left
      rw [p.contents hr, Log.contents, hc, if_neg (by simp), p'.members_trans u p, List.filter_append, old,
        p'.filter_taken_new u new, List.map_append, List.map_map, p'.map_image_new u new,
        Log.members_append, List.filter_append, List.append_assoc]
      exact congrArg (· ++ _) (List.map_congr_left fun x _ => p'.image_trans u p)

variable (v : f.Valid)
include v

theorem merged_trans (hm : .merge m member ∈ log') : WasMerged f (done ++ done') w'.forest m member := by
  have q := p'.merged hm
  have fresh := u.fresh q.visited
  have has := u.has q.visited
  have ⟨view, value, _⟩ := p.isView_original v has (p.not_merged fresh) q.view (isKind_iff.mpr q.value)
  exact ⟨List.mem_append_right _ q.visited, view, p.onScript_original v has fresh q.onScript, value,
    fun h => q.new (p.ext.has h), q.list, fun h => List.mem_append_right _ (q.settled (p.ext.has h))⟩

theorem trans : Progress f (done ++ done') (log ++ log') w' where
  valid := p'.valid
  ext := p'.ext.trans p.ext
  below {r c} hd hc := by
    rcases List.mem_append.mp hd with hd | hd
    case inl => exact List.mem_append_left _ (p.below hd hc)
    case inr =>
      rw [← p.children_eq (u.has hd) (u.fresh hd) fun c hc => u.below hd hc] at hc
      exact List.mem_append_right _ (p'.below hd hc)
  contents := p'.contents_trans u p
  fresh {r c} hr hc hf := by
    by_cases hw : w.forest.Has r
    case neg => exact List.mem_append_right _ (p'.fresh hw hc (p.ext.has hf))
    case pos =>
      rcases p'.mem_children hw hc with ⟨x, hx, -, rfl⟩ | hn
      case inl =>
        have same := p'.eq_of_image rfl (p.ext.has hf)
        rw [← same] at hf ⊢
        exact List.mem_append_left _ (p.fresh hr hx hf)
      case inr => exact absurd (p.ext.has hf) hn
  promoted {r cls} hm := by
    rcases List.mem_append.mp hm with hm | hm
    case inl =>
      have q := p.promoted hm
      exact ⟨List.mem_append_left _ q.visited, q.kind, q.new, (p'.ext.kind? (has_of_kind? q.cls)).trans q.cls⟩
    case inr =>
      have q := p'.promoted hm
      exact ⟨List.mem_append_right _ q.visited, p.kind?_eq (u.has q.visited) q.kind,
        fun h => q.new (p.ext.has h), q.cls⟩
  merged {m member} hm := by
    rcases List.mem_append.mp hm with hm | hm
    case inl =>
      have q := p.merged hm
      have same := p'.parent_member u p (Log.mem_members.mpr ⟨m, hm⟩)
      refine ⟨List.mem_append_left _ q.visited, q.view, q.onScript, q.value, q.new, ?_, ?_⟩
      · rw [same, p'.ext.kind? (has_of_kind? q.list), q.list]
      · exact same ▸ fun h => List.mem_append_left _ (q.settled h)
    case inr => exact p'.merged_trans u p v hm
  registered h hf := List.mem_append_right _ (p'.registered h (p.ext.has hf))

end Trans

end Progress

section Classes

variable (p' : Progress w.forest done' log' w') (u : Untouched f done done') (p : Progress f done log w)
variable (v : f.Valid)
include p' u p

-- What the first run has added has below it what it had.
theorem Progress.children_new (hx : ¬f.Has x) (hw : w.forest.Has x) :
    w'.forest.children x = w.forest.children x := by
  refine p'.children_eq hw (fun hm => hx (u.has hm)) fun c hc hm => ?_
  exact u.fresh hm (p.fresh hx hc (u.has hm))

theorem IsMember.later (h : IsMember f w.forest m member) : IsMember f w'.forest m member :=
  h.congr p.valid p'.ext fun hx hk _ => p'.children_new u p hx (has_of_kind? hk)

theorem IsConstructor.later (h : IsConstructor f w.forest r c) : IsConstructor f w'.forest r c :=
  h.congr p.valid p'.ext fun hx hk _ => p'.children_new u p hx (has_of_kind? hk)

theorem NewList.later {list constructor : Ref} (h : NewList f log w.forest r list constructor) :
    NewList f (log ++ log') w'.forest r list constructor := by
  have has := has_of_kind? h.kind
  have none := p'.members_nil has (.inl fun hm => h.new (u.has hm))
  refine ⟨h.new, (p'.ext.kind? has).trans h.kind, h.first.later p' u p, ?_⟩
  rw [p'.children_new u p h.new has, h.children, p'.members_trans u p, Log.members_append, List.filter_append,
    none, List.append_nil]

variable (v : f.Valid)
include v

theorem IsMember.earlier (h : IsMember w.forest w'.forest m member) (hm : .merge m member ∈ log') :
    IsMember f w'.forest m member := by
  obtain ⟨name, hn, text⟩ := h.text
  obtain ⟨n, data, statement, label⟩ := h.label
  have view := (p'.merged_trans u p v hm).view
  have has := u.has (p'.merged hm).visited
  refine ⟨fun hf => h.new (p.ext.has hf), ⟨name, ?named, text⟩,
    ⟨n, data, p.ext.label has ▸ statement, ?label⟩, h.below⟩
  case named => rw [← p.memberName?_eq v view.target.right, hn]
  case label => rw [label, p.isStatic_eq v view.target.right]

omit p' in
theorem IsConstructor.earlier (h : IsConstructor w.forest w'.forest r c) (hr : r ∈ done') :
    IsConstructor f w'.forest r c := by
  obtain ⟨n, data, doc, hn, hd, label⟩ := h.label
  obtain ⟨moved, noName, below, new, kind, parts, leaf⟩ := h.below
  have has := u.has hr
  have fresh := u.fresh hr
  have same := p.children_eq has fresh fun c hc => u.below hr hc
  refine ⟨fun hf => h.new (p.ext.has hf), h.text, ⟨n, data, doc, p.ext.label has ▸ hn, ?doc, label⟩,
    moved, noName, below, fun hf => new (p.ext.has hf), kind, ?parts, fun hf => leaf (p.ext.has hf)⟩
  case doc => rw [← p.constructorDoc?_eq v has fresh, hd]
  case parts => rw [parts, second, second, child, child, child, child, same]

theorem NewList.earlier {list constructor : Ref} (h : NewList w.forest log' w'.forest r list constructor)
    (hr : r ∈ done') : NewList f (log ++ log') w'.forest r list constructor := by
  refine ⟨fun hf => h.new (p.ext.has hf), h.kind, h.first.earlier u p v hr, ?_⟩
  have none : log.members.filter (w'.forest.parent · = list) = [] := by
    refine List.filter_eq_nil_iff.mpr fun x hx e => h.new ?_
    rw [← of_decide_eq_true e, p'.parent_member u p hx]
    exact has_of_kind? (p.has_of_mem_members hx).right
  rw [h.children, Log.members_append, List.filter_append, none, List.nil_append]

end Classes

/- Whole conversions -/

-- What is known of the conversion of the scripts `ss`.
structure Whole (f g : Forest) (ss : List Ref) (log : Log) : Prop where
  progress : Progress f (ss.flatMap f.postorder) log { forest := g }
  lists    : ∀ {r cls}, .promotion r cls ∈ log → ∃ constructor, NewList f log g r (g.members cls) constructor
  members  : ∀ {m member}, .merge m member ∈ log → IsMember f g m member
  classes  : ∀ {c}, g.kind? c = some .classDefinition →
    f.kind? c = some .classDefinition ∨ ∃ r, .promotion r c ∈ log
  order    : log.statements.Sublist (ss.flatMap f.postorder)
  nodup    : (ss.flatMap f.postorder).Nodup

theorem Whole.start (v : f.Valid) : Whole f f [] [] where
  progress  := .start v
  lists h   := nomatch h
  members h := nomatch h
  classes   := .inl
  order     := .slnil
  nodup     := .nil

-- The nodes of other scripts are not visited in the conversion of the first.
theorem untouched_of_apart {s : Ref} (v : f.Valid) (hs : f.Has s) (apart : ∀ t ∈ ss, f.Has t ∧ Apart f s t) :
    Untouched f (f.postorder s) (ss.flatMap f.postorder) := by
  have below {x : Ref} (hx : x ∈ ss.flatMap f.postorder) : ∃ t ∈ ss, f.Contains t x :=
    have ⟨t, ht, hx⟩ := List.mem_flatMap.mp hx
    ⟨t, ht, (v.mem_postorder (apart t ht).left.ne_none).mp hx⟩
  have other {t x : Ref} (ht : t ∈ ss) (hx : f.Contains t x) : x ∉ f.postorder s := fun hm =>
    (apart t ht).right x ((v.mem_postorder hs.ne_none).mp hm) hx
  refine ⟨fun hx => ?_, fun hx => ?_, fun hx hc => ?_⟩ <;> obtain ⟨t, ht, hx⟩ := below hx
  · exact hx.has (apart t ht).left
  · exact other ht hx
  · exact other ht (hx.trans (v.contains_child hc))

-- They are visited in the order in which they would be visited first.
theorem flatMap_postorder_eq {s : Ref} (v : f.Valid) (apart : ∀ t ∈ ss, f.Has t ∧ Apart f s t)
    (ok : f.runScript options s = (.ok (), w)) :
    ss.flatMap w.forest.postorder = ss.flatMap f.postorder :=
  List.flatMap_congr fun t ht =>
    (spares_of_run v (apart t ht).left (apart t ht).right ok).postorder_eq v .refl

theorem Whole.cons {s : Ref} (h : Whole w.forest g ss log) (v : f.Valid) (formed : f.Formed s)
    (apart : ∀ t ∈ ss, f.Has t ∧ Apart f s t) (ok : f.runScript options s = (.ok (), w)) :
    Whole f g (s :: ss) (f.changes options s ++ log) := by
  have done := finished_of_ok v formed ok
  have p := done.progress
  have p' := h.progress
  have same := flatMap_postorder_eq v apart ok
  have has := has_of_kind? done.kind
  have u := untouched_of_apart v has apart
  rw [same] at p'
  refine ⟨p'.trans u p v, fun {r cls} hm => ?lists, fun {m member} hm => ?members,
    fun {c} hk => ?classes, ?order, ?nodup⟩
  case lists =>
    rcases List.mem_append.mp hm with hm | hm
    case inl =>
      obtain ⟨constructor, list⟩ := done.gathered.lists hm
      have cls := (p.promoted hm).cls
      refine ⟨constructor, ?_⟩
      rw [p'.members_eq p.valid cls list.kind]
      exact list.later p' u p
    case inr =>
      obtain ⟨constructor, list⟩ := h.lists hm
      exact ⟨constructor, list.earlier p' u p v (p'.promoted hm).visited⟩
  case members =>
    rcases List.mem_append.mp hm with hm | hm
    case inl => exact (done.gathered.members hm).later p' u p
    case inr => exact (h.members hm).earlier p' u p v hm
  case classes =>
    rcases h.classes hk with hk | ⟨r, hm⟩
    case inl => exact (done.classes hk).imp id fun ⟨r, hm⟩ => ⟨r, List.mem_append_left _ hm⟩
    case inr => exact .inr ⟨r, List.mem_append_right _ hm⟩
  case order =>
    rw [Log.statements, List.filterMap_append, List.flatMap_cons]
    exact (done.run.statements_sublist v has (List.append_nil _).symm).append (same ▸ h.order)
  case nodup =>
    rw [List.flatMap_cons]
    exact (v.nodup_postorder has.ne_none).append (same ▸ h.nodup) fun x hs ht => u.fresh ht hs

theorem Passes.whole (h : Passes options ss f log summary g) : Whole f g ss log := by
  induction h
  case nil v => exact .start v
  case cons valid formed apart run _ ih => exact ih.cons valid formed apart run

end ClassLift
