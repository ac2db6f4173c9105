import ClassLift.Proofs.Convert.Log
import ClassLift.Proofs.Convert.Visit

/-!
What holds after each visit of a run. The forest is the original one up to the changes that have
been made, and these only concern what lies below the nodes that have been visited.
-/

namespace ClassLift

open Forest

variable {f g : Forest} {done : List Ref} {log : Log} {w w' : Workspace} {r c cls : Ref}
variable {m : MemberAssignment} {member : Ref}

-- A node is settled once its visit is over. New nodes are not visited.
def Settled (f : Forest) (done : List Ref) (r : Ref) : Prop :=
  f.Has r → r ∈ done

structure WasPromoted (f : Forest) (done : List Ref) (g : Forest) (r cls : Ref) : Prop where
  visited : r ∈ done
  kind    : f.kind? r = some .function
  new     : ¬f.Has cls
  cls     : g.kind? cls = some .classDefinition

structure WasMerged (f : Forest) (done : List Ref) (g : Forest) (m : MemberAssignment)
    (member : Ref) : Prop where
  visited  : m.statement ∈ done
  view     : m.IsView f
  onScript : f.kind? (f.parent m.statement) = some .script
  value    : f.kind? m.value = some .function
  new      : ¬f.Has member
  list     : g.kind? (g.parent member) = some .classMembers
  settled  : Settled f done (g.parent member)

structure Progress (f : Forest) (done : List Ref) (log : Log) (w : Workspace) : Prop where
  valid      : w.forest.Valid
  ext        : w.forest.Extends f
  below      : ∀ {r c}, r ∈ done → c ∈ f.children r → c ∈ done
  contents   : ∀ {r}, f.Has r → w.forest.children r = log.contents f w.forest r
  fresh      : ∀ {r c}, ¬f.Has r → c ∈ w.forest.children r → Settled f done c
  promoted   : ∀ {r cls}, .promotion r cls ∈ log → WasPromoted f done w.forest r cls
  merged     : ∀ {m member}, .merge m member ∈ log → WasMerged f done w.forest m member
  registered : ∀ {name r}, (name, r) ∈ w.registry.entries → Settled f done r

theorem Progress.start (v : f.Valid) : Progress f [] [] { forest := f } where
  valid        := v
  ext          := .refl f
  below h      := nomatch h
  contents     := by
    intro r _
    have image : Log.image [] = id := rfl
    simp [Log.contents, Log.cls?, Log.taken, Log.members, image]
  fresh hr hc  := absurd (has_of_mem_children hc) hr
  promoted h   := nomatch h
  merged h     := nomatch h
  registered h := nomatch h

namespace WasMerged

theorem value_mem (h : WasMerged f done g m member) : m.value ∈ f.children m.assignment :=
  h.view.value_mem (has_of_kind? h.value).ne_none

theorem parent_value (h : WasMerged f done g m member) (v : f.Valid) :
    f.parent m.value = m.assignment :=
  v.parent_eq h.value_mem

theorem parent_assignment (h : WasMerged f done g m member) (v : f.Valid) :
    f.parent m.assignment = m.statement :=
  v.parent_eq h.view.assignment_mem

end WasMerged

namespace Progress

/- What stands where it stood -/

theorem cls?_none (p : Progress f done log w) (hr : r ∉ done) : log.cls? r = none := by
  cases h : log.cls? r
  case none => rfl
  case some => exact absurd (p.promoted (Log.promotion_mem h)).visited hr

theorem cls?_none_of_kind {k : Kind} (p : Progress f done log w) (hk : f.kind? r = some k)
    (hn : k ≠ .function) : log.cls? r = none := by
  cases h : log.cls? r
  case none => rfl
  case some =>
    have := (p.promoted (Log.promotion_mem h)).kind
    exact absurd (Option.some.inj (hk.symm.trans this)) hn

-- Only functions become something else.
theorem image_eq_self {k : Kind} (p : Progress f done log w) (hk : f.kind? r = some k)
    (hn : k ≠ .function) : log.image r = r :=
  Log.image_of_none (p.cls?_none_of_kind hk hn)

theorem not_taken (p : Progress f done log w) (hr : r ∉ done) : r ∉ log.taken := by
  intro h
  obtain ⟨m, member, hm, rfl | rfl⟩ := Log.mem_taken.mp h
  · exact hr (p.merged hm).visited
  · have d := (p.merged hm).visited
    exact hr <| p.below (p.below d (p.merged hm).view.assignment_mem) (p.merged hm).value_mem

theorem not_merged (p : Progress f done log w) (hr : r ∉ done) : r ∉ log.statements := by
  intro h
  obtain ⟨m, member, hm, rfl⟩ := Log.mem_statements.mp h
  exact hr (p.merged hm).visited

theorem new_member (p : Progress f done log w) (h : r ∈ log.members) : ¬f.Has r :=
  have ⟨_, hm⟩ := Log.mem_members.mp h
  (p.merged hm).new

theorem image_none (p : Progress f done log w) : log.image none = none := by
  cases h : log.cls? none
  case none => exact Log.image_of_none h
  case some => exact nomatch (p.promoted (Log.promotion_mem h)).kind

theorem image_settled (p : Progress f done log w) (h : Settled f done r) :
    Settled f done (log.image r) := by
  cases hc : log.cls? r
  case none => rwa [Log.image_of_none hc]
  case some =>
    rw [Log.image_of_some hc]
    exact fun hn => absurd hn (p.promoted (Log.promotion_mem hc)).new

-- What is not a class stands for itself.
theorem image_of_kind {k : Kind} (p : Progress f done log w)
    (h : w.forest.kind? (log.image r) = some k) (hk : k ≠ .classDefinition) : log.image r = r := by
  cases hc : log.cls? r
  case none => exact Log.image_of_none hc
  case some =>
    rw [Log.image_of_some hc, (p.promoted (Log.promotion_mem hc)).cls] at h
    exact absurd (Option.some.inj h).symm hk

-- An original node in the place of another is that node.
theorem eq_of_image (p : Progress f done log w) (h : log.image r = c) (hc : f.Has c) : r = c := by
  cases hr : log.cls? r
  case none => exact (Log.image_of_none hr).symm.trans h
  case some =>
    rw [Log.image_of_some hr] at h
    exact absurd (h ▸ hc) (p.promoted (Log.promotion_mem hr)).new

theorem eq_of_image_none (p : Progress f done log w) (h : log.image r = none) : r = none := by
  cases hr : log.cls? r
  case none => exact (Log.image_of_none hr).symm.trans h
  case some =>
    have cls := (p.promoted (Log.promotion_mem hr)).cls
    rw [← Log.image_of_some hr, h] at cls
    cases cls

theorem image_eq_iff (p : Progress f done log w) (hf : f.Has r) (hu : log.cls? r = none) :
    log.image c = r ↔ c = r :=
  ⟨fun h => p.eq_of_image h hf, fun h => h ▸ Log.image_of_none (h ▸ hu)⟩

theorem cls?_none_of_image (p : Progress f done log w) (h : log.image r = r) (hf : f.Has r) :
    log.cls? r = none := by
  cases hr : log.cls? r
  case none => rfl
  case some =>
    rw [Log.image_of_some hr] at h
    exact absurd (h ▸ hf) (p.promoted (Log.promotion_mem hr)).new

-- A node keeps its kind, or it is a function that has become a class.
theorem kind?_image (p : Progress f done log w) (hf : f.Has r) :
    w.forest.kind? (log.image r) = f.kind? r ∨
      f.kind? r = some .function ∧ w.forest.kind? (log.image r) = some .classDefinition := by
  cases hc : log.cls? r
  case none => exact .inl (by rw [Log.image_of_none hc, p.ext.kind? hf])
  case some cls =>
    have promoted := p.promoted (Log.promotion_mem hc)
    exact .inr ⟨promoted.kind, by rw [Log.image_of_some hc, promoted.cls]⟩

-- One more function has become a class, and it had not become anything before.
theorem image_promoted {function : Ref} (p : Progress f done log w) (hf : f.Has function)
    (hu : log.cls? function = none) : Log.image (log ++ [.promotion function cls]) r =
      if log.image r = function then cls else log.image r := by
  have stands := p.image_eq_iff (c := r) hf hu
  rw [Log.image_promotion hu]
  by_cases hr : r = function
  case pos => rw [if_pos hr, if_pos (stands.mpr hr)]
  case neg => rw [if_neg hr, if_neg (stands.not.mpr hr)]

/- Children -/

theorem mem_children (p : Progress f done log w) (hr : f.Has r) (h : c ∈ w.forest.children r) :
    (∃ x ∈ f.children r, x ∉ log.taken ∧ log.image x = c) ∨ ¬f.Has c := by
  rw [p.contents hr, Log.contents] at h
  split at h
  case isTrue => cases h
  case isFalse =>
    rcases List.mem_append.mp h with h | h
    · obtain ⟨x, hx, rfl⟩ := List.mem_map.mp h
      rw [List.mem_filter, decide_eq_true_iff] at hx
      exact .inl ⟨x, hx.left, hx.right, rfl⟩
    · exact .inr <| p.new_member (List.mem_filter.mp h).left

theorem settled_child (p : Progress f done log w) (hr : Settled f done r)
    (h : c ∈ w.forest.children r) : Settled f done c := by
  by_cases hf : f.Has r
  case neg => exact p.fresh hf h
  case pos =>
    rcases p.mem_children hf h with ⟨x, hx, -, rfl⟩ | h
    · exact p.image_settled fun _ => p.below (hr hf) hx
    · exact fun hc => absurd hc h

-- A node, or the class that it has become, stays below its parent if it is not taken from it and the
-- parent is what it was.
theorem parent_image (p : Progress f done log w) (v : f.Valid) (hp : f.parent r ≠ none)
    (ht : r ∉ log.taken) (hc : log.cls? (f.parent r) = none) :
    w.forest.parent (log.image r) = f.parent r := by
  refine p.valid.parent_eq ?_
  rw [p.contents (v.has_parent hp), Log.contents, hc]
  refine List.mem_append_left _ <| List.mem_map.mpr ⟨r, ?_, rfl⟩
  exact List.mem_filter.mpr ⟨v.mem_parent hp, decide_eq_true ht⟩

theorem parent_kept (p : Progress f done log w) (v : f.Valid) (hp : f.parent r ≠ none)
    (ht : r ∉ log.taken) (hr : log.cls? r = none) (hc : log.cls? (f.parent r) = none) :
    w.forest.parent r = f.parent r :=
  (congrArg _ (Log.image_of_none hr)).symm.trans (p.parent_image v hp ht hc)

-- The parent of a node that is still to be visited is the original one.
theorem parent_eq (p : Progress f done log w) (v : f.Valid) (hf : f.Has r) (hr : r ∉ done) :
    w.forest.parent r = f.parent r := by
  by_cases hn : f.parent r = none
  case neg =>
    have hp : f.parent r ∉ done := fun hd => hr <| p.below hd (v.mem_parent hn)
    exact p.parent_kept v hn (p.not_taken hr) (p.cls?_none hr) (p.cls?_none hp)
  case pos =>
    rw [hn]
    by_contra h
    have hm := p.valid.mem_parent h
    by_cases hq : f.Has (w.forest.parent r)
    case neg => exact hr (p.fresh hq hm hf)
    case pos =>
      rcases p.mem_children hq hm with ⟨x, hx, -, e⟩ | hm
      · have ⟨e', hne⟩ := v.mem_children.mp (p.eq_of_image e hf ▸ hx)
        exact hne (e'.symm.trans hn)
      · exact hm hf

theorem members_nil (p : Progress f done log w) (hf : f.Has r)
    (hr : r ∉ done ∨ f.kind? r ≠ some .classMembers) :
    log.members.filter (w.forest.parent · = r) = [] := by
  refine List.filter_eq_nil_iff.mpr fun c hc e => ?_
  obtain ⟨m, hm⟩ := Log.mem_members.mp hc
  have e := of_decide_eq_true e
  rcases hr with hr | hr
  · exact hr <| e ▸ (p.merged hm).settled (e ▸ hf)
  · exact hr <| by rw [← p.ext.kind? hf, ← e, (p.merged hm).list]

theorem children_kept (p : Progress f done log w) (hf : f.Has r) (hr : r ∉ done)
    (hc : ∀ c ∈ f.children r, c ∉ log.taken ∧ log.cls? c = none) :
    w.forest.children r = f.children r := by
  have keep : (f.children r).filter (· ∉ log.taken) = f.children r :=
    List.filter_eq_self.mpr fun c h => decide_eq_true (hc c h).left
  have same : (f.children r).map log.image = f.children r :=
    (List.map_congr_left fun c h => Log.image_of_none (hc c h).right).trans (List.map_id _)
  rw [p.contents hf, Log.contents, p.cls?_none hr, p.members_nil hf (.inl hr), keep, same]
  simp

-- The children of a node below which no visit has been are the original ones.
theorem children_eq (p : Progress f done log w) (hf : f.Has r) (hr : r ∉ done)
    (hc : ∀ c ∈ f.children r, c ∉ done) : w.forest.children r = f.children r :=
  p.children_kept hf hr fun c h => ⟨p.not_taken (hc c h), p.cls?_none (hc c h)⟩

-- Nothing below a node is taken from it unless it is a script or the assignment of a statement
-- that has been merged.
theorem filter_taken (p : Progress f done log w) (v : f.Valid) (hs : f.kind? r ≠ some .script)
    (ha : f.kind? r = some .assignment → f.parent r ∉ log.statements) :
    (f.children r).filter (· ∉ log.taken) = f.children r := by
  refine List.filter_eq_self.mpr fun c h => decide_eq_true fun ht => ?_
  obtain ⟨m, member, hm, rfl | rfl⟩ := Log.mem_taken.mp ht
  · exact hs <| v.parent_eq h ▸ (p.merged hm).onScript
  · have e := ((p.merged hm).parent_value v).symm.trans (v.parent_eq h)
    refine ha (e ▸ (p.merged hm).view.assignment.right) (Log.mem_statements.mpr ⟨m, member, hm, ?_⟩)
    rw [← e, (p.merged hm).parent_assignment v]

theorem children_image (p : Progress f done log w) (v : f.Valid) (hf : f.Has r)
    (hr : log.cls? r = none) (hk : f.kind? r ≠ some .classMembers) (hs : f.kind? r ≠ some .script)
    (ha : f.kind? r = some .assignment → f.parent r ∉ log.statements) :
    w.forest.children r = (f.children r).map log.image := by
  rw [p.contents hf, Log.contents, hr, p.members_nil hf (.inr hk), p.filter_taken v hs ha]
  simp

-- Most nodes have below them what they had, or what it has become.
theorem children_of_kind {k : Kind} (p : Progress f done log w) (v : f.Valid)
    (hk : f.kind? r = some k) (hn : k ∉ [.function, .classMembers, .script, .assignment]) :
    w.forest.children r = (f.children r).map log.image := by
  simp only [List.mem_cons, List.not_mem_nil, or_false, not_or] at hn
  have ⟨function, members, script, assignment⟩ := hn
  exact p.children_image v (has_of_kind? hk) (p.cls?_none_of_kind hk function) (by simp [hk, members])
    (by simp [hk, script]) (by simp [hk, assignment])

-- A list of members keeps what it had, and gets what is merged.
theorem children_list (p : Progress f done log w) (v : f.Valid)
    (hk : f.kind? r = some .classMembers) : w.forest.children r =
      (f.children r).map log.image ++ log.members.filter (w.forest.parent · = r) := by
  rw [p.contents (has_of_kind? hk), Log.contents, p.cls?_none_of_kind hk (by simp),
    p.filter_taken v (by simp [hk]) (by simp [hk])]
  simp

theorem child_image {i : Nat} (p : Progress f done log w)
    (h : w.forest.children r = (f.children r).map log.image) :
    w.forest.child r i = log.image (f.child r i) := by
  rw [child, child, h, List.getElem?_map]
  cases (f.children r)[i]?
  case none => exact p.image_none.symm
  case some => rfl

theorem kind?_eq {k : Kind} (p : Progress f done log w) (hf : f.Has r)
    (h : w.forest.kind? r = some k) : f.kind? r = some k :=
  p.ext.kind? hf ▸ h

-- A child that is not a class has always been there.
theorem child_eq {i : Nat} {k : Kind} (p : Progress f done log w) (v : f.Valid)
    (h : w.forest.children r = (f.children r).map log.image)
    (hc : w.forest.kind? (w.forest.child r i) = some k) (hk : k ≠ .classDefinition) :
    w.forest.child r i = f.child r i ∧ f.kind? (f.child r i) = some k ∧
      log.cls? (f.child r i) = none := by
  rw [p.child_image h] at hc ⊢
  have e := p.image_of_kind hc hk
  rw [e] at hc ⊢
  have hf : f.Has (f.child r i) := v.has_child <| child_mem fun hn =>
    (has_of_kind? hc).ne_none hn
  exact ⟨rfl, p.kind?_eq hf hc, p.cls?_none_of_image e hf⟩

-- The method that a statement is seen to be is what it has been from the start.
theorem isView_original (p : Progress f done log w) (v : f.Valid) (hf : f.Has m.statement)
    (hr : m.statement ∉ log.statements) (i : m.IsView w.forest) (hm : m.isMethod w.forest) :
    m.IsView f ∧ f.kind? m.value = some .function ∧ log.cls? m.value = none := by
  have hs := p.kind?_eq hf i.statement
  have cs := p.children_of_kind v hs (by simp)
  have ⟨ea, ha, hu⟩ := p.child_eq v cs (i.assignment.left ▸ i.assignment.right) (by simp)
  have ea : m.assignment = f.first m.statement := i.assignment.left.trans ea
  have ha : f.kind? m.assignment = some .assignment := ea ▸ ha
  have hp : f.parent m.assignment = m.statement := by
    refine v.parent_eq (ea ▸ child_mem fun hn => ?_)
    exact (has_of_kind? ha).ne_none (ea.trans hn)
  have hu : log.cls? m.assignment = none := (congrArg log.cls? ea).trans hu
  have cs := p.children_image v (has_of_kind? ha) hu (by simp [ha]) (by simp [ha]) fun _ => hp ▸ hr
  have ⟨et, ht, _⟩ := p.child_eq v cs (i.target.left ▸ i.target.right) (by simp)
  have ⟨ev, hv, hu⟩ := p.child_eq v cs (i.value ▸ isKind_iff.mp hm) (by simp)
  have et : m.target = f.first m.assignment := i.target.left.trans et
  have ev : m.value = f.second m.assignment := i.value.trans ev
  have ht : f.kind? m.target = some .propertyAccess := (congrArg f.kind? et).trans ht
  have hv : f.kind? m.value = some .function := (congrArg f.kind? ev).trans hv
  refine ⟨⟨hs, ⟨ea, ha⟩, ⟨et, ht⟩, ev, ?doc⟩, hv, (congrArg log.cls? ev).trans hu⟩
  rw [i.doc, p.ext.docIndex? hf, p.ext.docIndex? (has_of_kind? ha),
    p.ext.docIndex? (has_of_kind? hv)]

/- Steps -/

theorem congr (p : Progress f done log w) (e : w'.forest = w.forest)
    (he : ∀ {name c}, (name, c) ∈ w'.registry.entries →
      (name, c) ∈ w.registry.entries ∨ Settled f done c) : Progress f done log w' where
  valid        := e ▸ p.valid
  ext          := e ▸ p.ext
  below        := p.below
  contents hf  := e ▸ p.contents hf
  fresh hf hc  := p.fresh hf (e ▸ hc)
  promoted h   := e ▸ p.promoted h
  merged h     := e ▸ p.merged h
  registered h := (he h).elim p.registered id

-- A node may be visited once all that is below it has been.
theorem advance (p : Progress f done log w) (hc : ∀ c ∈ f.children r, c ∈ done) :
    Progress f (done ++ [r]) log w := by
  have mono {c : Ref} (h : Settled f done c) : Settled f (done ++ [r]) c := fun hf =>
    List.mem_append_left _ (h hf)
  refine ⟨p.valid, p.ext, fun {c d} hd hm => ?below, p.contents, fun hf hm => mono (p.fresh hf hm),
    fun h => ?promoted, fun h => ?merged, fun h => mono (p.registered h)⟩
  case below =>
    refine List.mem_append_left _ ?_
    rcases List.mem_append.mp hd with hd | hd
    · exact p.below hd hm
    · exact hc d (List.mem_singleton.mp hd ▸ hm)
  case promoted =>
    have p := p.promoted h
    exact { p with visited := List.mem_append_left _ p.visited }
  case merged =>
    have p := p.merged h
    exact { p with visited := List.mem_append_left _ p.visited, settled := mono p.settled }

theorem has_of_mem_members (p : Progress f done log w) (h : r ∈ log.members) :
    w.forest.Has r ∧ w.forest.kind? (w.forest.parent r) = some .classMembers := by
  obtain ⟨m, hm⟩ := Log.mem_members.mp h
  have list := (p.merged hm).list
  exact ⟨has_of_parent_ne_none (has_of_kind? list).ne_none, list⟩

-- The members that have been merged stay in their lists.
theorem parent_promoted {doc : Nat} {q : Promoted} (p : Progress f done log w)
    (hf : f.kind? q.function = some .function) (e : w.forest.Promotes g doc q) (h : r ∈ log.members) :
    g.parent r = w.forest.parent r := by
  have hF := has_of_kind? hf
  have ⟨hr, list⟩ := p.has_of_mem_members h
  refine e.parent_of_ne p.valid hr (fun h' => p.new_member h (h' ▸ hF)) fun h' => ?_
  rw [h', p.ext.kind? hF, hf] at list
  cases list

theorem parent_merged {members : Ref} {name : String} {isStatic : Bool} (p : Progress f done log w)
    (hs : f.Has m.statement) (hv : f.Has m.value)
    (e : w.forest.Merges g m members member name isStatic) (h : r ∈ log.members) :
    g.parent r = w.forest.parent r := by
  have ⟨hr, _⟩ := p.has_of_mem_members h
  exact e.parent_of_ne p.valid hr (fun h' => p.new_member h (h' ▸ hs))
    (fun h' => p.new_member h (h' ▸ hv))

theorem contents_promoted {doc : Nat} {q : Promoted} (p : Progress f done log w)
    (hf : f.kind? q.function = some .function) (hu : log.cls? q.function = none)
    (e : w.forest.Promotes g doc q) (hr : f.Has r) :
    g.children r = Log.contents (log ++ [.promotion q.function q.cls]) f g r := by
  have hF := has_of_kind? hf
  rw [e.old (p.ext.has hr), p.contents hr, Log.contents, Log.contents, Log.cls?_concat,
    Log.taken_concat, Log.members_concat]
  simp only [Change.cls?, Change.taken, Change.member?, Option.toList_none, List.append_nil]
  by_cases h : q.function = r
  case pos => simp [h]
  case neg =>
    simp only [h, Ne.symm h, if_false, Option.or_none]
    split
    case isTrue => rfl
    case isFalse =>
      rw [List.map_append, List.map_map]
      congr 1
      · refine List.map_congr_left fun c _ => ?_
        rw [Log.image_promotion hu, Function.comp_apply]
        by_cases hc : c = q.function
        case pos => rw [hc, Log.image_of_none hu, if_pos rfl]
        case neg => rw [if_neg hc, if_neg fun hi => hc (p.eq_of_image hi hF)]
      · rw [List.filter_congr fun c hc => congrArg (decide <| · = r) (p.parent_promoted hf e hc).symm]
        refine (List.map_congr_left fun c hc => if_neg fun hi => ?_).trans (List.map_id _)
        exact p.new_member (List.mem_filter.mp hc).left (hi ▸ hF)

theorem contents_merged {members : Ref} {name : String} {isStatic : Bool} (p : Progress f done log w)
    (view : m.IsView f) (value : f.kind? m.value = some .function) (hu : log.cls? m.value = none)
    (hl : w.forest.kind? members = some .classMembers)
    (e : w.forest.Merges g m members member name isStatic) (hr : f.Has r) :
    g.children r = Log.contents (log ++ [.merge m member]) f g r := by
  have hS := has_of_kind? view.statement
  have hV := has_of_kind? value
  have hn := p.contents hr ▸ p.valid.nodup r
  rw [e.old (p.ext.has hr), p.contents hr, (hn.erase _).erase_eq_filter, hn.erase_eq_filter,
    List.filter_filter, Log.contents, Log.contents, Log.cls?_concat, Log.taken_concat,
    Log.members_concat, Log.image_merge]
  simp only [Change.cls?, Change.taken, Change.member?, Option.toList_some, Option.or_none]
  by_cases hc : (log.cls? r).isSome
  case pos =>
    have hr' : r ≠ members := by
      rintro rfl
      obtain ⟨cls, hc⟩ := Option.isSome_iff_exists.mp hc
      cases (p.kind?_eq hr hl).symm.trans (p.promoted (Log.promotion_mem hc)).kind
    simp [hc, hr']
  case neg =>
    rw [if_neg hc, if_neg hc, List.filter_append, List.filter_map, List.filter_filter,
      List.filter_append, List.append_assoc]
    congr 1
    · congr 1
      refine List.filter_congr fun c _ => ?_
      have statement := p.image_eq_iff (c := c) hS (p.cls?_none_of_kind view.statement (by simp))
      have function := p.image_eq_iff (c := c) hV hu
      rw [Bool.eq_iff_iff]
      simp [statement, function]
      tauto
    · congr 1
      · have old : ∀ c ∈ log.members.filter (w.forest.parent · = r),
            (c != m.value && c != m.statement) = true := fun c hc => by
          have new := p.new_member (List.mem_filter.mp hc).left
          simpa using ⟨fun h => new (h ▸ hV), fun h => new (h ▸ hS)⟩
        rw [List.filter_eq_self.mpr old]
        exact List.filter_congr fun c hc =>
          congrArg (decide <| · = r) (p.parent_merged hS hV e hc).symm
      · by_cases h : r = members <;> simp [e.parent_member p.valid, h, eq_comm]

theorem promote {doc : Nat} {q : Promoted} (p : Progress f done log w)
    (hf : f.kind? q.function = some .function) (hd : q.function ∈ done)
    (hu : log.cls? q.function = none) (e : w.forest.Promotes g doc q) (hg : w'.forest = g)
    (he : w'.registry = w.registry) :
    Progress f done (log ++ [.promotion q.function q.cls]) w' := by
  subst hg
  have new : ¬f.Has q.cls := fun h => e.new_cls.right (p.ext.has h)
  have settled : Settled f done q.cls := fun h => absurd h new
  have kind {r : Ref} {k : Kind} (h : w.forest.kind? r = some k) : w'.forest.kind? r = some k :=
    (e.ext.kind? (has_of_kind? h)).trans h
  refine ⟨e.valid, e.ext.trans p.ext, p.below, p.contents_promoted hf hu e, fun {r c} hr hc => ?fresh,
    fun {r cls} h => ?promoted, fun {m member} h => ?merged, fun h => p.registered (he ▸ h)⟩
  case fresh =>
    by_cases hw : w.forest.Has r
    case pos =>
      rw [e.old hw] at hc
      split at hc
      case isTrue => cases hc
      case isFalse =>
        obtain ⟨x, hx, rfl⟩ := List.mem_map.mp hc
        split
        case isTrue => exact settled
        case isFalse => exact p.fresh hr hx
    case neg =>
      rcases e.of_mem_children hw hc with h | h
      · exact fun hc => absurd (p.ext.has hc) h
      · exact p.settled_child (fun _ => hd) (e.parts ▸ h)
  case promoted =>
    rcases List.mem_append.mp h with h | h
    · have p := p.promoted h
      exact ⟨p.visited, p.kind, p.new, kind p.cls⟩
    · cases List.mem_singleton.mp h
      exact ⟨hd, hf, new, e.kind_cls⟩
  case merged =>
    have h : .merge m member ∈ log := by simpa using h
    have stay := p.parent_promoted hf e (Log.mem_members.mpr ⟨m, h⟩)
    have p := p.merged h
    exact ⟨p.visited, p.view, p.onScript, p.value, p.new, stay ▸ kind p.list, stay ▸ p.settled⟩

theorem merge {members : Ref} {name : String} {isStatic : Bool} (p : Progress f done log w)
    (view : m.IsView f) (onScript : f.kind? (f.parent m.statement) = some .script)
    (value : f.kind? m.value = some .function) (hd : m.statement ∈ done)
    (hu : log.cls? m.value = none) (hl : w.forest.kind? members = some .classMembers)
    (hm : Settled f done members) (e : w.forest.Merges g m members member name isStatic)
    (hg : w'.forest = g) (he : w'.registry = w.registry) :
    Progress f done (log ++ [.merge m member]) w' := by
  subst hg
  have hV := has_of_kind? value
  have kind {r : Ref} {k : Kind} (h : w.forest.kind? r = some k) : w'.forest.kind? r = some k :=
    (e.ext.kind? (has_of_kind? h)).trans h
  have new : ¬f.Has member := fun h => e.new (p.ext.has h)
  have parent := e.parent_member p.valid
  refine ⟨e.valid, e.ext.trans p.ext, p.below, p.contents_merged view value hu hl e,
    fun {r c} hr hc => ?fresh, fun {r cls} h => ?promoted, fun {m' member'} h => ?merged,
    fun h => p.registered (he ▸ h)⟩
  case fresh =>
    by_cases hw : w.forest.Has r
    case pos =>
      rcases (e.mem_old p.valid hw).mp hc with ⟨hc, -, -⟩ | ⟨-, rfl⟩
      · exact p.fresh hr hc
      · exact fun h => absurd h new
    case neg =>
      rw [(e.of_mem_children hw hc).right]
      exact fun _ => p.below (p.below hd view.assignment_mem) (view.value_mem hV.ne_none)
  case promoted =>
    have p := p.promoted (by simpa using h)
    exact ⟨p.visited, p.kind, p.new, kind p.cls⟩
  case merged =>
    rcases List.mem_append.mp h with h | h
    · have stay := p.parent_merged (has_of_kind? view.statement) hV e (Log.mem_members.mpr ⟨m', h⟩)
      have p := p.merged h
      exact ⟨p.visited, p.view, p.onScript, p.value, p.new, stay ▸ kind p.list, stay ▸ p.settled⟩
    · cases List.mem_singleton.mp h
      exact ⟨hd, view, onScript, value, new, parent ▸ kind hl, parent ▸ hm⟩

theorem settled_members (p : Progress f done log w) {k : Kind} (hr : Settled f done r)
    (h : w.forest.kind? (w.forest.members r) = some k) : Settled f done (w.forest.members r) :=
  p.settled_child hr <| members_mem (has_of_kind? h).ne_none

theorem onScript_original (p : Progress f done log w) (v : f.Valid) (hf : f.Has r) (hr : r ∉ done)
    (h : w.forest.kind? (w.forest.parent r) = some .script) :
    f.kind? (f.parent r) = some .script := by
  rw [p.parent_eq v hf hr] at h
  exact p.kind?_eq (v.has_parent (has_of_kind? h).ne_none) h

theorem step {options : Options} {change : Option Change} (p : Progress f done log w) (v : f.Valid)
    (hf : f.Has r) (hr : r ∉ done) (hc : ∀ c ∈ f.children r, c ∈ done)
    (h : w.Visited options r change w') : Progress f (done ++ [r]) (log ++ change.toList) w' := by
  have hu := p.cls?_none hr
  have p' := p.advance hc
  have visited : Settled f (done ++ [r]) r := fun _ => by simp
  cases h
  case pass | plain | statement => simpa using p'
  case cls =>
    rw [Option.toList_none, List.append_nil]
    refine p'.congr (by simp) fun h => (Workspace.mem_entries_define h).imp_right fun h => ?_
    exact h ▸ visited
  case constructor kind documented ok =>
    cases ok
    case refused =>
      rw [Option.map_none, Option.toList_none, List.append_nil]
      exact p'.congr rfl .inl
    case promoted q g free ofFunction promotes =>
      subst ofFunction
      have p' : Progress f _ _ { w with forest := g } :=
        p'.promote (p.kind?_eq hf kind) (by simp) hu promotes rfl rfl
      refine p'.congr (by simp) fun h => (Workspace.mem_entries_define h).imp_right ?_
      rintro rfl hf
      exact absurd (p.ext.has hf) promotes.new_cls.right
  case method m member of view onScript isMethod ok =>
    subst of
    cases ok
    case stays | unknown =>
      rw [Option.map_none, Option.toList_none, List.append_nil]
      exact p'.congr rfl .inl
    case joins cls member className name g joins kind merges =>
      have ⟨view', value, hv⟩ := p.isView_original v hf (p.not_merged hr) view isMethod
      have registered := p'.registered (Registry.mem_of_lookup? joins.registered)
      exact p'.merge view' (p.onScript_original v hf hr onScript) value (by simp) hv kind
        (p'.settled_members registered kind) merges rfl rfl

end Progress

end ClassLift
