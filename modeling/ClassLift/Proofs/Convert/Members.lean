import ClassLift.Proofs.Convert.Reached

/-!
The members of classes. A class has those that it was defined with, and then the ones that have been
merged into it, each with the function that was assigned.
-/

namespace ClassLift

open Forest

/- New nodes -/

-- What a visit leaves as it was. New nodes keep what they have below them, but a list of members may
-- get one more.
structure Stays (f : Forest) (log : Log) (change : Option Change) (w w' : Workspace) : Prop where
  ext      : w'.forest.Extends w.forest
  parent   : ∀ {x}, x ∈ log.members → w'.forest.parent x = w.forest.parent x
  children : ∀ {x}, ¬f.Has x → w.forest.Has x → w'.forest.children x = w.forest.children x ++
    (Log.members change.toList).filter (w'.forest.parent · = x)
  member   : ∀ {x}, x ∈ Log.members change.toList → w'.forest.kind? x = some .memberFunction

variable {f g : Forest} {script r c cls : Ref} {done done' rest : List Ref} {log log' : Log}
variable {w w' : Workspace} {m : MemberAssignment} {member : Ref} {k : Kind} {options : Options}
variable {change : Option Change} {className name : String}

-- The list of a class that has always been there is the original one.
theorem Progress.members_eq (p : Progress f done log w) (v : f.Valid)
    (hk : f.kind? c = some .classDefinition) (hm : f.kind? (f.members c) = some .classMembers) :
    w.forest.members c = f.members c := by
  have hw : w.forest.kind? c = some .classDefinition := (p.ext.kind? (has_of_kind? hk)).trans hk
  rw [members_of_kind hw, p.last_image (p.children_of_kind v hk (by simp)), ← members_of_kind hk,
    p.image_eq_self hm (by simp)]

theorem Progress.members_original (p : Progress f done log w) (v : f.Valid) (hf : f.isFormed c)
    (hk : f.kind? c = some .classDefinition) :
    w.forest.members c = f.members c ∧ f.kind? (f.members c) = some .classMembers :=
  have hm := kind?_members hf hk
  ⟨p.members_eq v hk hm, hm⟩

namespace Stays

theorem of_eq (e : w'.forest = w.forest) : Stays f log none w w' where
  ext          := e ▸ .refl _
  parent _     := e ▸ rfl
  children _ _ := by simp [e, Log.members]
  member h     := by simp [Log.members] at h

theorem of_promotes {q : Promoted} {doc : Nat} (p : Progress f done log w)
    (hk : f.kind? q.function = some .function) (hr : q.function ∉ done)
    (e : w.forest.Promotes g doc q) (hg : w'.forest = g) :
    Stays f log (some (.promotion q.function q.cls)) w w' := by
  subst hg
  have hF := has_of_kind? hk
  refine ⟨e.ext, p.parent_promoted hk e, fun {x} hx hw => ?_, by simp [Log.members, Change.member?]⟩
  have out : q.function ∉ w.forest.children x := fun hm => hr (p.fresh hx hm hF)
  have same : (w.forest.children x).map (fun c => if c = q.function then q.cls else c) =
      w.forest.children x := by
    refine (List.map_congr_left fun c hc => if_neg fun e => ?_).trans (List.map_id _)
    exact out (e ▸ hc)
  rw [e.old hw, if_neg fun e : x = q.function => hx (e ▸ hF), same]
  simp [Log.members, Change.member?]

theorem of_merges {members : Ref} {name : String} {isStatic : Bool} (p : Progress f done log w)
    (hs : f.Has m.statement) (hr : m.statement ∉ done) (view : m.IsView f) (view' : m.IsView w.forest)
    (hv : f.Has m.value) (e : w.forest.Merges g m members member name isStatic)
    (hg : w'.forest = g) : Stays f log (some (.merge m member)) w w' := by
  subst hg
  refine ⟨e.ext, p.parent_merged hs hv e, fun {x} hx hw => ?children, fun {x} hx => ?member⟩
  case member =>
    obtain ⟨n, data, -, label⟩ := e.label
    simp only [Log.members, Option.toList_some, List.filterMap_cons, Change.member?, List.filterMap_nil,
      List.mem_singleton] at hx
    simp [hx, kind?_eq_label?, label, memberNode]
  have statement : m.statement ∉ w.forest.children x := fun hm => hr (p.fresh hx hm hs)
  have function : m.value ∉ w.forest.children x := fun hm => by
    have hp := p.valid.parent_eq <| view'.value_mem hv.ne_none
    exact hx <| (hp.symm.trans <| p.valid.parent_eq hm) ▸ has_of_kind? view.assignment.right
  rw [e.old hw, List.erase_of_not_mem statement, List.erase_of_not_mem function]
  by_cases h : x = members <;> simp [Log.members, Change.member?, e.parent_member p.valid, h, eq_comm]

theorem of_visited (p : Progress f done log w) (v : f.Valid) (hf : f.Has r) (hr : r ∉ done)
    (visited : w.Visited options r change w') : Stays f log change w w' := by
  rcases visited.change_cases with rfl | ⟨cls, rfl⟩ | ⟨m, member, rfl, rfl⟩
  case inl => exact of_eq visited.forest_eq
  case inr.inl =>
    obtain ⟨-, doc, q, rfl, rfl, kind, -, promotes⟩ := visited.of_promotion
    exact of_promotes p (p.kind?_eq hf kind) hr promotes rfl
  case inr.inr =>
    obtain ⟨-, view, -, isMethod, cls, className, name, joins, kind, merges⟩ := visited.of_merge
    have ⟨view', value, _⟩ := p.isView_original v hf (p.not_merged hr) view isMethod
    exact of_merges p hf hr view' view (has_of_kind? value) merges rfl

-- Only lists of members get new ones.
theorem children_of_kind (t : Stays f log change w w')
    (p : Progress f done' (log ++ change.toList) w') (hx : ¬f.Has c)
    (hk : w.forest.kind? c = some k) (hn : k ≠ .classMembers) :
    w'.forest.children c = w.forest.children c := by
  have none : (Log.members change.toList).filter (w'.forest.parent · = c) = [] := by
    refine List.filter_eq_nil_iff.mpr fun x hm e => ?_
    obtain ⟨m, hm⟩ := Log.mem_members.mp hm
    have list := (p.merged (List.mem_append_right _ hm)).list
    rw [of_decide_eq_true e, t.ext.kind? (has_of_kind? hk), hk] at list
    exact hn (Option.some.inj list)
  rw [t.children hx (has_of_kind? hk), none, List.append_nil]

theorem members_filter (t : Stays f log change w w') (x : Ref) :
    (Log.members (log ++ change.toList)).filter (w'.forest.parent · = x) =
      log.members.filter (w.forest.parent · = x) ++
        (Log.members change.toList).filter (w'.forest.parent · = x) := by
  rw [Log.members, List.filterMap_append, List.filter_append]
  congr 1
  exact List.filter_congr fun c hc => congrArg (decide <| · = x) (t.parent hc)

-- A class keeps its list of members.
theorem members_eq (t : Stays f log change w w') (p : Progress f done log w)
    (p' : Progress f done' (log ++ change.toList) w') (v : f.Valid) (hf : f.Has c → f.isFormed c)
    (hk : w.forest.kind? c = some .classDefinition) : w'.forest.members c = w.forest.members c := by
  by_cases hc : f.Has c
  case pos =>
    have kind := p.kind?_eq hc hk
    rw [(p'.members_original v (hf hc) kind).left, (p.members_original v (hf hc) kind).left]
  case neg =>
    have kind : w'.forest.kind? c = w.forest.kind? c := t.ext.kind? (has_of_kind? hk)
    rw [members, members, last, last, isKind, isKind, kind,
      t.children_of_kind p' hc hk (by simp)]

end Stays

/- What is new in a class -/

-- The member that the function `r` has become when it was promoted.
structure IsConstructor (f g : Forest) (r constructor : Ref) : Prop where
  new   : ¬f.Has constructor
  text  : g.text? constructor = some "constructor"
  label : ∃ n data doc, f.label? r = some n ∧ f.constructorDoc? r = some doc ∧
    g.label? constructor = some (constructorNode n data doc)
  below : ∃ moved noName, g.children constructor = [moved] ∧ ¬f.Has moved ∧
    g.kind? moved = some .function ∧ g.children moved = [noName, f.second r, f.child r 2] ∧
    ¬f.Has noName

-- The member that the function of a statement has been moved to.
structure IsMember (f g : Forest) (m : MemberAssignment) (member : Ref) : Prop where
  new   : ¬f.Has member
  text  : ∃ name, m.memberName? f = some name ∧ g.text? member = some name
  label : ∃ n data, f.label? m.statement = some n ∧
    g.label? member = some (memberNode n (m.isStatic f) data m.doc)
  below : g.children member = [m.value]

theorem IsConstructor.of_promotes {q : Promoted} {doc : Nat} (p : Progress f done log w)
    (v : f.Valid) (parts : Parts f w.forest q) (hr : q.function ∉ done)
    (hd : w.forest.constructorDoc? q.function = some doc) (e : w.forest.Promotes g doc q) :
    IsConstructor f g q.function q.constructor := by
  have hF := has_of_kind? parts.function
  obtain ⟨n, data, hn, text, newClass⟩ := e.newClass
  have new {r : Ref} (h : r ∈ [q.cls, q.superclass, q.members, q.constructor, q.moved, q.noName]) :
      ¬f.Has r :=
    fun hf => (newClass.new r h).right (p.ext.has hf)
  have second : f.second q.function = q.parameters := by simp [second, child, parts.parts]
  have third : f.child q.function 2 = q.body := by simp [child, parts.parts]
  refine ⟨new (by simp), ?text, ⟨n, data, doc, p.ext.label hF ▸ hn, ?doc, newClass.label⟩,
    q.moved, q.noName, newClass.constructor, new (by simp), newClass.kinds.right.right, ?moved,
    new (by simp)⟩
  case text =>
    rw [text?_eq_label?, newClass.label]
    simpa [constructorNode, Kind.hasText] using text
  case doc => rw [← p.constructorDoc?_eq v hF hr, hd]
  case moved => rw [newClass.moved, second, third]

-- The new nodes but the lists of members have what they had.
theorem IsConstructor.congr {e : Forest} (h : IsConstructor f g r c) (v : g.Valid) (ext : e.Extends g)
    (same : ∀ {x k}, ¬f.Has x → g.kind? x = some k → k ≠ .classMembers → e.children x = g.children x) :
    IsConstructor f e r c := by
  obtain ⟨n, data, doc, hn, hd, label⟩ := h.label
  obtain ⟨moved, noName, below, new, kind, parts, leaf⟩ := h.below
  have has : g.Has c := has_of_mem_children (r := moved) (by simp [below])
  have member : g.kind? c = some .memberFunction := by
    simp [kind?_eq_label?, label, constructorNode]
  refine ⟨h.new, ?text, ⟨n, data, doc, hn, hd, (ext.label has).trans label⟩,
    moved, noName, ?below, new, (ext.kind? (has_of_kind? kind)).trans kind, ?parts, leaf⟩
  case text => rw [ext.text? v has, h.text]
  case below => rw [same h.new member (by simp), below]
  case parts => rw [same new kind (by simp), parts]

theorem IsConstructor.step {constructor : Ref} (h : IsConstructor f w.forest r constructor)
    (t : Stays f log change w w') (p : Progress f done log w)
    (p' : Progress f done' (log ++ change.toList) w') : IsConstructor f w'.forest r constructor :=
  h.congr p.valid t.ext fun hx => t.children_of_kind p' hx

theorem IsMember.of_merges {members : Ref} (p : Progress f done log w) (v : f.Valid)
    (view : m.IsView f) (hn : m.memberName? w.forest = some name)
    (e : w.forest.Merges g m members member name (m.isStatic w.forest)) : IsMember f g m member := by
  have hS := has_of_kind? view.statement
  obtain ⟨n, data, statement, label⟩ := e.label
  refine ⟨fun h => e.new (p.ext.has h), ⟨name, ?named, e.text⟩,
    ⟨n, data, p.ext.label hS ▸ statement, ?label⟩, e.below⟩
  case named => rw [← p.memberName?_eq v view.target.right, hn]
  case label => rw [label, p.isStatic_eq v view.target.right]

theorem IsMember.kind (h : IsMember f g m member) : g.kind? member = some .memberFunction := by
  obtain ⟨n, data, -, label⟩ := h.label
  simp [kind?_eq_label?, label, memberNode]

theorem IsMember.congr {e : Forest} (h : IsMember f g m member) (v : g.Valid) (ext : e.Extends g)
    (same : ∀ {x k}, ¬f.Has x → g.kind? x = some k → k ≠ .classMembers → e.children x = g.children x) :
    IsMember f e m member := by
  obtain ⟨name, hn, text⟩ := h.text
  obtain ⟨n, data, statement, label⟩ := h.label
  have has : g.Has member := has_of_kind? h.kind
  refine ⟨h.new, ⟨name, hn, ?text⟩, ⟨n, data, statement, (ext.label has).trans label⟩, ?below⟩
  case text => rw [ext.text? v has, text]
  case below => rw [same h.new h.kind (by simp), h.below]

theorem IsMember.step (h : IsMember f w.forest m member) (t : Stays f log change w w')
    (p : Progress f done log w) (p' : Progress f done' (log ++ change.toList) w') :
    IsMember f w'.forest m member :=
  h.congr p.valid t.ext fun hx => t.children_of_kind p' hx

-- The list of a class that the function `r` has become. What has been merged comes after the
-- constructor.
structure NewList (f : Forest) (log : Log) (g : Forest) (r list constructor : Ref) : Prop where
  new      : ¬f.Has list
  kind     : g.kind? list = some .classMembers
  first    : IsConstructor f g r constructor
  children : g.children list = constructor :: log.members.filter (g.parent · = list)

theorem NewList.of_promotes {q : Promoted} {doc : Nat} (p : Progress f done log w) (v : f.Valid)
    (parts : Parts f w.forest q) (hr : q.function ∉ done)
    (hd : w.forest.constructorDoc? q.function = some doc) (e : w.forest.Promotes g doc q) :
    NewList f (log ++ [.promotion q.function q.cls]) g q.function (g.members q.cls) q.constructor := by
  have constructor := IsConstructor.of_promotes p v parts hr hd e
  obtain ⟨n, data, hn, text, newClass⟩ := e.newClass
  have list : g.members q.cls = q.members := by
    simp [members, last, isKind, newClass.kinds.left, newClass.cls]
  have new : ¬w.forest.Has q.members := (newClass.new q.members (by simp)).right
  rw [list]
  refine ⟨fun h => new (p.ext.has h), newClass.kinds.right.left, constructor, ?children⟩
  have none : (Log.members (log ++ [.promotion q.function q.cls])).filter
      (g.parent · = q.members) = [] := by
    rw [Log.members_concat, Change.member?, Option.toList_none, List.append_nil]
    refine List.filter_eq_nil_iff.mpr fun x hx e' => new ?_
    rw [← of_decide_eq_true e', p.parent_promoted parts.function e hx]
    exact has_of_kind? (p.has_of_mem_members hx).right
  rw [none, newClass.members]

theorem NewList.step {list constructor : Ref} (h : NewList f log w.forest r list constructor)
    (t : Stays f log change w w') (p : Progress f done log w)
    (p' : Progress f done' (log ++ change.toList) w') :
    NewList f (log ++ change.toList) w'.forest r list constructor := by
  have has := has_of_kind? h.kind
  refine ⟨h.new, (t.ext.kind? has).trans h.kind, h.first.step t p p', ?_⟩
  rw [t.children h.new has, h.children, t.members_filter, List.cons_append]

/- Runs -/

-- The classes that were functions, the members that have been merged, and where these are.
structure Gathered (f : Forest) (done : List Ref) (log : Log) (w : Workspace) : Prop where
  lists   : ∀ {r cls}, .promotion r cls ∈ log →
    ∃ constructor, NewList f log w.forest r (w.forest.members cls) constructor
  members : ∀ {m member}, .merge m member ∈ log → IsMember f w.forest m member
  homes   : ∀ {m member}, .merge m member ∈ log → ∃ className r,
    m.className? f = .ok (some className) ∧ f.firstOf? done className = some r ∧
      w.forest.parent member = w.forest.members (log.image r)

theorem Gathered.start (f : Forest) : Gathered f [] [] { forest := f } where
  lists h   := nomatch h
  members h := nomatch h
  homes h   := nomatch h

theorem Gathered.step (h : Gathered f done log w) (p : Progress f done log w)
    (p' : Progress f (done ++ [r]) (log ++ change.toList) w') (d : Defined f done log w)
    (reached : Reached f script log w) (v : f.Valid) (s : f.Formed script)
    (hd : ∀ x ∈ done, f.Contains script x) (hc : f.Contains script r) (hf : f.Has r) (hr : r ∉ done)
    (visited : w.Visited options r change w') :
    Gathered f (done ++ [r]) (log ++ change.toList) w' := by
  have t := Stays.of_visited p v hf hr visited
  have k := Defined.Keeps.of_visited p hr visited
  -- The class that a name stands for keeps its list.
  have home {className : String} {x : Ref} (hx : f.firstOf? done className = some x) :
      w'.forest.members (Log.image (log ++ change.toList) x) = w.forest.members (log.image x) := by
    have ⟨before, _⟩ := mem_definitions.mp (mem_of_firstOf? hx).left
    have ⟨hk, _⟩ := reached.registered p d hd hx
    rw [k.image x before]
    exact t.members_eq p p' v (fun hc => p.eq_of_image rfl hc ▸ s x (hd x before)) hk
  refine ⟨fun {x cls} hm => ?lists, fun {m member} hm => ?members, fun {m member} hm => ?homes⟩
  case lists =>
    rcases List.mem_append.mp hm with hm | hm
    case inl =>
      have old := p.promoted hm
      obtain ⟨constructor, list⟩ := h.lists hm
      rw [t.members_eq p p' v (absurd · old.new) old.cls]
      exact ⟨constructor, list.step t p p'⟩
    case inr =>
      obtain rfl := Option.mem_toList.mp hm
      obtain ⟨rfl, doc, q, rfl, rfl, kind, documented, promotes⟩ := visited.of_promotion
      have parts := p.parts v (s.below hc) hr (p.kind?_eq hf kind) promotes
      exact ⟨q.constructor, .of_promotes p v parts hr documented promotes⟩
  case members =>
    rcases List.mem_append.mp hm with hm | hm
    case inl => exact (h.members hm).step t p p'
    case inr =>
      obtain rfl := Option.mem_toList.mp hm
      obtain ⟨rfl, view, -, isMethod, cls, className, name, joins, -, merges⟩ := visited.of_merge
      have ⟨view, _⟩ := p.isView_original v hf (p.not_merged hr) view isMethod
      exact .of_merges p v view joins.named merges
  case homes =>
    rcases List.mem_append.mp hm with hm | hm
    case inl =>
      obtain ⟨className, x, ofClass, hx, parent⟩ := h.homes hm
      refine ⟨className, x, ofClass, firstOf?_append_of_some hx, ?_⟩
      rw [home hx, t.parent (Log.mem_members.mpr ⟨m, hm⟩), parent]
    case inr =>
      obtain rfl := Option.mem_toList.mp hm
      obtain ⟨rfl, view, -, isMethod, cls, className, name, joins, -, merges⟩ := visited.of_merge
      have ⟨view, _⟩ := p.isView_original v hf (p.not_merged hr) view isMethod
      obtain ⟨x, hx, rfl⟩ := d.of_lookup? joins.registered
      refine ⟨className, x, ?ofClass, firstOf?_append_of_some hx, ?parent⟩
      case ofClass => rw [← p.className?_eq v view.target.right, joins.ofClass]
      case parent => rw [home hx, merges.parent_member p.valid]

theorem Run.gathered (run : Run options f done log w) (v : f.Valid) (s : f.Formed script)
    (hs : f.kind? script = some .script) (h : f.postorder script = done ++ rest) :
    Gathered f done log w := by
  have has := has_of_kind? hs
  refine run.invariant (motive := Gathered f) v has h (.start f)
    fun {done log w r rest change w'} order run h visited => ?_
  have t := turn_of_postorder v has order
  have p := run.progress v has order
  have ⟨hc, hd⟩ := contains_of_postorder v has order
  exact h.step p (p.step v t.has t.fresh t.children visited) (run.defined v has order)
    (run.reached v s hs order) v s hd hc t.has t.fresh visited

-- A class has always been there, or it is one that a function has become.
theorem Run.classes (run : Run options f done log w) (v : f.Valid) (hs : f.Has script)
    (order : f.postorder script = done ++ rest) (hk : w.forest.kind? c = some .classDefinition) :
    f.kind? c = some .classDefinition ∨ ∃ r, .promotion r c ∈ log := by
  refine run.invariant (motive := fun _ log w => w.forest.kind? c = some .classDefinition →
    f.kind? c = some .classDefinition ∨ ∃ r, .promotion r c ∈ log) v hs order .inl ?_ hk
  intro done log w r rest change w' _ _ ih visited hk
  have keep (h : w.forest.kind? c = some .classDefinition) : f.kind? c = some .classDefinition ∨
      ∃ r, .promotion r c ∈ log ++ change.toList :=
    (ih h).imp_right fun ⟨r, hm⟩ => ⟨r, List.mem_append_left _ hm⟩
  rcases visited.change_cases with rfl | ⟨cls, rfl⟩ | ⟨m, member, rfl, rfl⟩
  case inl => exact keep (visited.forest_eq ▸ hk)
  case inr.inl =>
    obtain ⟨-, doc, q, rfl, rfl, -, -, promotes⟩ := visited.of_promotion
    by_cases hc : c = q.cls
    case pos => exact .inr ⟨q.function, by simp [hc]⟩
    case neg => exact keep (promotes.kind_old hk hc)
  case inr.inr =>
    obtain ⟨-, -, -, -, cls, className, name, -, -, merges⟩ := visited.of_merge
    exact keep (merges.kind_old hk)

/- The lists of classes -/

-- What a class has that nothing has been merged into.
inductive OwnMembers (f g : Forest) (log : Log) (r : Ref) : List Ref → Prop
  | original (kind : f.kind? r = some .classDefinition) :
    OwnMembers f g log r ((f.children (f.members r)).map log.image)
  | promoted {constructor : Ref} (kind : f.kind? r = some .function)
    (first : IsConstructor f g r constructor) : OwnMembers f g log r [constructor]

theorem members_inj (v : f.Valid) (h : f.members r ≠ none) (e : f.members r = f.members c) : r = c := by
  have hr := v.parent_eq (members_mem h)
  have hc := v.parent_eq (members_mem (e ▸ h))
  rw [← hr, e, hc]

namespace Progress

variable {r' : Ref} (p : Progress f done log w) (v : f.Valid)
variable (lists : ∀ {r cls}, .promotion r cls ∈ log →
  ∃ constructor, NewList f log w.forest r (w.forest.members cls) constructor)
include p v lists

-- Two functions do not become one class.
theorem cls_inj (hr : .promotion r cls ∈ log) (hr' : .promotion r' cls ∈ log) : r = r' := by
  obtain ⟨constructor, list⟩ := lists hr
  obtain ⟨constructor', list'⟩ := lists hr'
  obtain ⟨rfl, -⟩ := List.cons.inj <| list.children.symm.trans list'.children
  obtain ⟨moved, noName, below, -, -, parts, -⟩ := list.first.below
  obtain ⟨moved', noName', below', -, -, parts', -⟩ := list'.first.below
  obtain ⟨rfl, -⟩ := List.cons.inj <| below.symm.trans below'
  have second : f.second r = f.second r' :=
    (List.cons.inj (List.cons.inj (parts.symm.trans parts')).right).left
  have ne : f.second r ≠ none := (p.valid.has_child (p := moved) (by simp [parts])).ne_none
  have hp : f.parent (f.second r) = r := v.parent_eq (child_mem ne)
  have ne' : f.second r' ≠ none := second ▸ ne
  have hp' : f.parent (f.second r') = r' := v.parent_eq (child_mem ne')
  rw [← hp, second, hp']

theorem image_inj (hr : f.Has r) (hr' : f.Has r') (e : log.image r = log.image r') : r = r' := by
  cases hc : log.cls? r
  case none =>
    rw [Log.image_of_none hc] at e
    exact (p.eq_of_image e.symm hr).symm
  case some =>
    cases hc' : log.cls? r'
    case none =>
      rw [Log.image_of_none hc'] at e
      exact p.eq_of_image e hr'
    case some =>
      rw [Log.image_of_some hc, Log.image_of_some hc'] at e
      subst e
      exact p.cls_inj v lists (Log.promotion_mem hc) (Log.promotion_mem hc')

end Progress

namespace Gathered

theorem image_inj {r' : Ref} (h : Gathered f done log w) (p : Progress f done log w) (v : f.Valid)
    (hr : f.Has r) (hr' : f.Has r') (e : log.image r = log.image r') : r = r' :=
  p.image_inj v h.lists hr hr' e

-- The list of a class has the members of that name.
theorem members_filter (h : Gathered f done log w) (p : Progress f done log w) (v : f.Valid)
    (hd : ∀ x ∈ done, f.Has x) (hr : f.firstOf? done className = some r) :
    log.members.filter (w.forest.parent · = w.forest.members (log.image r)) =
      log.membersOf f className := by
  have has {className : String} {x : Ref} (hx : f.firstOf? done className = some x) : f.Has x :=
    hd x (mem_definitions.mp (mem_of_firstOf? hx).left).left
  rw [Log.members, List.filter_filterMap, Log.membersOf]
  refine List.filterMap_congr fun c hc => ?_
  cases c
  case promotion => rfl
  case merge m member =>
    obtain ⟨className', x, ofClass, hx, parent⟩ := h.homes hc
    have ne := (has_of_kind? (p.merged hc).list).ne_none
    have same : w.forest.parent member = w.forest.members (log.image r) ↔ m.isOf f className := by
      rw [MemberAssignment.isOf_iff, ofClass, Except.ok.injEq, Option.some.injEq]
      constructor
      case mp =>
        intro e
        rw [parent] at ne e
        obtain rfl := h.image_inj p v (has hx) (has hr) (members_inj p.valid ne e)
        exact Option.some.inj <| (mem_of_firstOf? hx).right.symm.trans (mem_of_firstOf? hr).right
      case mpr =>
        rintro rfl
        obtain rfl := Option.some.inj (hx.symm.trans hr)
        exact parent
    rw [Change.member?, Change.memberOf?, Option.filter_some]
    simp [same]

theorem children_members (h : Gathered f done log w) (p : Progress f done log w)
    (d : Defined f done log w) (v : f.Valid) (s : f.Formed script)
    (hs : f.Has script) (hd : ∀ x ∈ done, f.Contains script x)
    (hr : f.firstOf? done className = some r) : ∃ own, OwnMembers f w.forest log r own ∧
      w.forest.children (w.forest.members (log.image r)) = own ++ log.membersOf f className := by
  have filter := h.members_filter p v (fun x hx => (hd x hx).has hs) hr
  have ⟨visited, isDefinition⟩ := mem_definitions.mp (mem_of_firstOf? hr).left
  rcases isDefinition_iff.mp isDefinition with hk | ⟨hk, -⟩
  case inl =>
    have ⟨list, kind⟩ := p.members_original v (s r (hd r visited)) hk
    refine ⟨_, .original hk, ?_⟩
    rw [← filter, p.image_eq_self hk (by simp), list, p.children_list v kind]
  case inr =>
    obtain ⟨cls, hc⟩ := d.cls?_of_first hr hk
    obtain ⟨constructor, list⟩ := h.lists (Log.promotion_mem hc)
    refine ⟨_, .promoted hk list.first, ?_⟩
    rw [← filter, Log.image_of_some hc, list.children]
    rfl

end Gathered

end ClassLift
