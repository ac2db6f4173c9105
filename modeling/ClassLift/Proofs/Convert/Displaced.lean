import ClassLift.Proofs.Convert.Whole

/-!
What a conversion takes out of its place: functions, each of which a class replaces, and statements of
scripts. Which ones these are can be told from the forests before and after it.
-/

namespace ClassLift

open Forest Workspace

variable {options : Options} {f g : Forest} {script r cls : Ref} {done done' rest : List Ref}
variable {log log' : Log} {w w' : Workspace} {change : Option Change} {m : MemberAssignment} {member : Ref}

-- The function has lost its parts and its place, and a new class is there. Only where the place was below a
-- function that has lost its parts as well, the class may have gone with these.
structure Replaced (f g : Forest) (r cls : Ref) : Prop where
  function : f.kind? r = some .function
  attached : f.parent r ≠ none
  parts    : f.children r ≠ []
  emptied  : g.children r = []
  free     : g.parent r = none
  new      : ¬f.Has cls
  isClass  : g.kind? cls = some .classDefinition
  place    : g.parent cls = f.parent r ∨
    f.kind? (f.parent r) = some .function ∧ g.children (f.parent r) = []

-- A node is no longer below its script. Functions are left out, because classes replace them.
structure Detached (f g : Forest) (r : Ref) : Prop where
  onScript : f.kind? (f.parent r) = some .script
  other    : f.kind? r ≠ some .function
  free     : g.parent r = none

/- What has been moved -/

-- What is old below new nodes has been a part of a function or a value that was assigned, and it has not
-- become a class.
structure Moved (f : Forest) (log : Log) (g : Forest) : Prop where
  below    : ∀ {p c}, ¬f.Has p → c ∈ g.children p → f.Has c → log.cls? c = none ∧
    (f.kind? (f.parent c) = some .function ∨ f.kind? (f.parent c) = some .assignment)
  value    : ∀ {m member}, .merge m member ∈ log → log.cls? m.value = none
  promoted : ∀ {r cls}, .promotion r cls ∈ log → f.children r ≠ [] ∧ f.parent r ≠ none

theorem WasMerged.value_visited (h : WasMerged f done g m member) (p : Progress f done log w) :
    m.value ∈ done :=
  p.below (p.below h.visited h.view.assignment_mem) h.value_mem

namespace Moved

theorem start (f : Forest) : Moved f [] f where
  below hp hc _ := absurd (has_of_mem_children hc) hp
  value h       := nomatch h
  promoted h    := nomatch h

section Step

variable (h : Moved f log w.forest) (p : Progress f done log w) (v : f.Valid) (t : Turn f done r)
variable (visited : w.Visited options r change w')
include p t visited

-- Of the nodes that have been visited before, none becomes a class.
theorem cls?_later {x : Ref} (hx : x ∈ done) (kept : log.cls? x = none) :
    Log.cls? (log ++ change.toList) x = none := by
  have keeps := Defined.Keeps.of_visited p t.fresh visited
  rw [Log.cls?_eq_none] at kept ⊢
  rwa [keeps.promoted fun e => t.fresh (e ▸ hx)]

include v

-- What a visit puts below the nodes that it adds.
theorem below_added {q c : Ref} (hq : ¬w.forest.Has q) (hc : c ∈ w'.forest.children q) (hf : f.Has c) :
    c ∈ done ∧ log.cls? c = none ∧
      (f.kind? (f.parent c) = some .function ∨ f.kind? (f.parent c) = some .assignment) := by
  rcases visited.change_cases with rfl | ⟨cls, rfl⟩ | ⟨m, member, rfl, rfl⟩
  case inl =>
    rw [visited.forest_eq] at hc
    exact absurd (has_of_mem_children hc) hq
  case inr.inl =>
    have ⟨_, doc, q, of, _, kind, _, promotes⟩ := visited.of_promotion
    have old := (promotes.of_mem_children hq hc).resolve_left fun new => new (p.ext.has hf)
    rw [← promotes.parts, of] at old
    have ⟨x, hx, _, same⟩ := (p.mem_children t.has old).resolve_right fun new => new hf
    obtain rfl := p.eq_of_image same hf
    have kind := p.kind?_eq t.has kind
    exact ⟨t.children x hx, p.cls?_none_of_image same hf, .inl (v.parent_eq hx ▸ kind)⟩
  case inr.inr =>
    have ⟨_, view, _, isMethod, _, _, _, _, _, merges⟩ := visited.of_merge
    have ⟨view, value, kept⟩ := p.isView_original v t.has (p.not_merged t.fresh) view isMethod
    obtain rfl := (merges.of_mem_children hq hc).right
    have mem := view.value_mem hf.ne_none
    have below := p.below (t.children _ view.assignment_mem) mem
    exact ⟨below, kept, .inr (v.parent_eq mem ▸ view.assignment.right)⟩

include h

theorem step : Moved f (log ++ change.toList) w'.forest := by
  have stays := Stays.of_visited p v t.has t.fresh visited
  have p' := p.step v t.has t.fresh t.children visited
  constructor
  case below =>
    intro q c hq hc hf
    by_cases hw : w.forest.Has q
    case pos =>
      rw [stays.children hq hw] at hc
      have old : c ∈ w.forest.children q := by
        refine (List.mem_append.mp hc).resolve_right fun hm => p'.new_member ?_ hf
        exact Log.members_append ▸ List.mem_append_right _ (List.mem_filter.mp hm).left
      have ⟨kept, kind⟩ := h.below hq old hf
      exact ⟨cls?_later p t visited (p.fresh hq old hf) kept, kind⟩
    case neg =>
      have ⟨before, kept, kind⟩ := below_added p v t visited hw hc hf
      exact ⟨cls?_later p t visited before kept, kind⟩
  case value =>
    intro m member hm
    rcases List.mem_append.mp hm with hm | hm
    case inl => exact cls?_later p t visited ((p.merged hm).value_visited p) (h.value hm)
    case inr =>
      obtain rfl := Option.mem_toList.mp hm
      have ⟨of, view, _, isMethod, _⟩ := visited.of_merge
      have has := of ▸ t.has
      have ⟨view, value, kept⟩ := p.isView_original v has (p.not_merged (of ▸ t.fresh)) view isMethod
      have mem := view.value_mem (has_of_kind? value).ne_none
      exact cls?_later p t visited (p.below (t.children _ (of ▸ view.assignment_mem)) mem) kept
  case promoted =>
    intro x cls hm
    rcases List.mem_append.mp hm with hm | hm
    case inl => exact h.promoted hm
    case inr =>
      obtain rfl := Option.mem_toList.mp hm
      have ⟨same, doc, q, of, _, kind, _, promotes⟩ := visited.of_promotion
      have parts := promotes.parts
      have attached := promotes.attached
      have kind := p.kind?_eq t.has kind
      rw [of] at parts attached
      rw [p.children_image v t.has (p.cls?_none t.fresh) (by simp [kind]) (by simp [kind]) (by simp [kind])]
        at parts
      rw [p.parent_eq v t.has t.fresh] at attached
      rw [same]
      exact ⟨fun none => by simp [none] at parts, attached⟩

end Step

-- One run after the other.
theorem trans (h : Moved f log w.forest) (h' : Moved w.forest log' w'.forest)
    (p' : Progress w.forest done' log' w') (u : Untouched f done done') (p : Progress f done log w)
    (v : f.Valid) : Moved f (log ++ log') w'.forest := by
  have later {x : Ref} (hx : x ∈ done) (kept : log.cls? x = none) : Log.cls? (log ++ log') x = none := by
    rw [Log.cls?_append, kept, p'.cls?_none fun hm => u.fresh hm hx, Option.none_or]
  have earlier {x : Ref} (hx : x ∈ done') (kept : log'.cls? x = none) : Log.cls? (log ++ log') x = none := by
    rw [Log.cls?_append, p.cls?_none (u.fresh hx), kept, Option.none_or]
  constructor
  case below =>
    intro q c hq hc hf
    by_cases hw : w.forest.Has q
    case pos =>
      rw [p'.children_new u p hq hw] at hc
      have ⟨kept, kind⟩ := h.below hq hc hf
      exact ⟨later (p.fresh hq hc hf) kept, kind⟩
    case neg =>
      have ⟨kept, kind⟩ := h'.below hw hc (p.ext.has hf)
      have mem := p'.fresh hw hc (p.ext.has hf)
      rw [p.parent_eq v hf (u.fresh mem)] at kind
      refine ⟨earlier mem kept, kind.imp (fun kind => ?_) fun kind => ?_⟩ <;>
        exact p.kind?_eq (v.has_parent (has_of_kind? kind).ne_none) kind
  case value =>
    intro m member hm
    rcases List.mem_append.mp hm with hm | hm
    case inl => exact later ((p.merged hm).value_visited p) (h.value hm)
    case inr => exact earlier ((p'.merged hm).value_visited p') (h'.value hm)
  case promoted =>
    intro r cls hm
    rcases List.mem_append.mp hm with hm | hm
    case inl => exact h.promoted hm
    case inr =>
      have visited := (p'.promoted hm).visited
      have ⟨parts, attached⟩ := h'.promoted hm
      have has := u.has visited
      have fresh := u.fresh visited
      rw [p.children_eq has fresh fun c hc => u.below visited hc] at parts
      rw [p.parent_eq v has fresh] at attached
      exact ⟨parts, attached⟩

end Moved

theorem Run.moved (run : Run options f done log w) (v : f.Valid) (hs : f.Has script)
    (h : f.postorder script = done ++ rest) : Moved f log w.forest := by
  refine run.invariant (motive := fun _ log w => Moved f log w.forest) v hs h (.start f) ?_
  intro done log w r rest change w' order run moved visited
  exact moved.step (run.progress v hs order) v (turn_of_postorder v hs order) visited

/- What has been taken out of its place -/

section Displaced

variable (p : Progress f done log w) (v : f.Valid)
include p

-- What has become a class or has been merged is nowhere.
theorem Moved.parent_none {x : Ref} (h : Moved f log w.forest) (hx : f.Has x)
    (out : log.cls? x ≠ none ∨ x ∈ log.statements) : w.forest.parent x = none := by
  by_contra hn
  have mem := p.valid.mem_parent hn
  by_cases old : f.Has (w.forest.parent x)
  case pos =>
    have ⟨y, _, kept, same⟩ := (p.mem_children old mem).resolve_right fun new => new hx
    obtain rfl := p.eq_of_image same hx
    rcases out with out | out
    case inl => exact out (p.cls?_none_of_image same hx)
    case inr =>
      have ⟨m, member, hm, e⟩ := Log.mem_statements.mp out
      exact kept (Log.mem_taken.mpr ⟨m, member, hm, .inl e.symm⟩)
  case neg =>
    have ⟨kept, kind⟩ := h.below old mem hx
    rcases out with out | out
    case inl => exact out kept
    case inr =>
      obtain ⟨m, member, hm, rfl⟩ := Log.mem_statements.mp out
      simp [(p.merged hm).onScript] at kind

theorem Moved.detached (h : Moved f log w.forest) (hm : .merge m member ∈ log) :
    Detached f w.forest m.statement := by
  have merged := p.merged hm
  have statement := merged.view.statement
  refine ⟨merged.onScript, by simp [statement], ?_⟩
  exact h.parent_none p (has_of_kind? statement) (.inr (Log.mem_statements.mpr ⟨m, member, hm, rfl⟩))

include v

theorem Moved.replaced (h : Moved f log w.forest) (unique : (log.map Change.site).Nodup)
    (hm : .promotion r cls ∈ log) : Replaced f w.forest r cls := by
  have promoted := p.promoted hm
  have ⟨parts, attached⟩ := h.promoted hm
  have has := has_of_kind? promoted.kind
  have ⟨cls', hc⟩ := Option.isSome_iff_exists.mp (Log.cls?_isSome hm)
  have image : log.image r = cls := by
    rw [Log.image_of_some hc]
    have same := List.inj_on_of_nodup_map unique (Log.promotion_mem hc) hm rfl
    exact (Change.promotion.inj same).right
  have kept : r ∉ log.taken := fun ht => by
    obtain ⟨m, member, hm', rfl | rfl⟩ := Log.mem_taken.mp ht
    case inl => cases (p.merged hm').view.statement.symm.trans promoted.kind
    case inr => cases hc.symm.trans (h.value hm')
  refine ⟨promoted.kind, attached, parts, ?emptied, h.parent_none p has (.inl (by simp [hc])), promoted.new,
    promoted.cls, ?place⟩
  case emptied => rw [p.contents has, Log.contents, hc, Option.isSome_some, if_pos rfl]
  case place =>
    cases above : log.cls? (f.parent r)
    case none => exact .inl (image ▸ p.parent_image v attached kept above)
    case some =>
      have kind := (p.promoted (Log.promotion_mem above)).kind
      refine .inr ⟨kind, ?_⟩
      rw [p.contents (has_of_kind? kind), Log.contents, above, Option.isSome_some, if_pos rfl]

-- Nothing but a promotion empties a function.
theorem Replaced.promoted (h : Replaced f w.forest r cls) : ∃ cls, .promotion r cls ∈ log := by
  by_contra no
  have kind := h.function
  have emptied := h.emptied
  rw [p.children_image v (has_of_kind? kind) (Log.cls?_eq_none.mpr no) (by simp [kind]) (by simp [kind])
    (by simp [kind])] at emptied
  exact h.parts (List.map_eq_nil_iff.mp emptied)

-- Nothing but a merge takes a statement from its script.
theorem Detached.merged (h : Detached f w.forest r) :
    ∃ m member, .merge m member ∈ log ∧ m.statement = r := by
  by_contra no
  have script := h.onScript
  have attached := (has_of_kind? script).ne_none
  have kept : r ∉ log.taken := fun ht => by
    obtain ⟨m, member, hm, rfl | rfl⟩ := Log.mem_taken.mp ht
    case inl => exact no ⟨m, member, hm, rfl⟩
    case inr => exact h.other (p.merged hm).value
  have stays : log.cls? r = none := Log.cls?_eq_none.mpr fun ⟨_, hm⟩ => h.other (p.promoted hm).kind
  have parent := p.parent_kept v attached kept stays (p.cls?_none_of_kind script (by simp))
  exact attached (parent.symm.trans h.free)

end Displaced

/- Whole conversions -/

-- What is known of the conversions of the scripts `ss`, whatever their nodes have below them.
structure Toured (f : Forest) (ss : List Ref) (log : Log) (g : Forest) : Prop where
  progress : Progress f (ss.flatMap f.postorder) log { forest := g }
  moved    : Moved f log g
  sites    : (log.map Change.site).Sublist (ss.flatMap f.postorder)
  nodup    : (ss.flatMap f.postorder).Nodup

namespace Toured

variable {s root : Ref} {ss : List Ref} {summary : Summary}

theorem start (v : f.Valid) : Toured f [] [] f where
  progress := .start v
  moved    := .start f
  sites    := .slnil
  nodup    := .nil

theorem cons (h : Toured w.forest ss log g) (v : f.Valid) (apart : ∀ t ∈ ss, f.Has t ∧ Apart f s t)
    (ok : f.runScript options s = (.ok (), w)) : Toured f (s :: ss) (f.changes options s ++ log) g := by
  have ⟨kind, run⟩ := run_of_ok v ok
  have has := has_of_kind? kind
  have order := (List.append_nil (f.postorder s)).symm
  have p := run.progress v has order
  have u := untouched_of_apart v has apart
  have ⟨p', moved, sites, nodup⟩ := h
  rw [flatMap_postorder_eq v apart ok] at p' sites nodup
  refine ⟨p'.trans u p v, (run.moved v has order).trans moved p' u p v, ?sites, ?nodup⟩
  case sites =>
    rw [List.map_append]
    exact (run.sites_sublist v has order).append sites
  case nodup => exact (v.nodup_postorder has.ne_none).append nodup fun x hs ht => u.fresh ht hs

end Toured

theorem Series.toured {ss : List Ref} {summary : Summary} (h : Series options ss f log summary g) :
    Toured f ss log g := by
  induction h
  case nil v => exact .start v
  case cons valid apart run _ ih => exact ih.cons valid apart run

end ClassLift
