import ClassLift.Convert.Promotion
import ClassLift.Proofs.Convert.Registry
import ClassLift.Proofs.Naming.Path
import ClassLift.Proofs.Tree.Edits

/-!
What a promotion does to a valid forest.
-/

namespace ClassLift

namespace Forest

variable {f g h : Forest} {r : Ref}

/- The superclass -/

theorem sprouts_addEmpty (v : f.Valid) : f.Sprouts (f.add .empty []).1 (f.add .empty []).2 :=
  .of_add (.refl v) (adds_add v .nil .empty) (by simp) (by simp) rfl

theorem sprouts_addSuperclass (v : f.Valid) (doc : Nat) :
    f.Sprouts (f.addSuperclass doc).1 (f.addSuperclass doc).2 := by
  unfold addSuperclass
  split
  case h_1 g chain h =>
    obtain ⟨name, -, h⟩ := Option.map_eq_some_iff.mp h
    unfold buildPath at h
    split at h
    case h_1 => exact (addsPath_addPath v h).sprouts
    case h_2 => cases h
  case h_2 => exact sprouts_addEmpty v

-- The chain of a base type that is a path, and otherwise an empty node.
def IsSuperclass (f : Forest) (r : Ref) (base : Option String) : Prop :=
  match base.bind Path.ofText? with
  | some path => f.Chain r path
  | none => f.kind? r = some .empty ∧ f.children r = []

theorem IsSuperclass.transfer {base : Option String} {P : Ref → Prop} (s : f.IsSuperclass r base)
    (e : g.Extends f) (closed : ∀ {x y}, P x → y ∈ f.children x → P y)
    (children : ∀ {x}, f.Has x → P x → g.children x = f.children x) (hr : P r) :
    g.IsSuperclass r base := by
  unfold IsSuperclass at s ⊢
  split at s
  case h_1 => exact s.transfer e closed children hr
  case h_2 =>
    have has := has_of_kind? s.left
    exact ⟨(e.kind? has).trans s.left, (children has hr).trans s.right⟩

theorem IsSuperclass.kind {base : Option String} (s : f.IsSuperclass r base) :
    ∃ k ∈ [Kind.empty, .identifier, .propertyAccess], f.kind? r = some k := by
  unfold IsSuperclass at s
  split at s
  case h_1 => rcases s.kind with kind | kind <;> exact ⟨_, by simp, kind⟩
  case h_2 => exact ⟨_, by simp, s.left⟩

theorem isSuperclass_addSuperclass (v : f.Valid) (doc : Nat) :
    (f.addSuperclass doc).1.IsSuperclass (f.addSuperclass doc).2 (f.baseName? doc) := by
  have d := adds_add v .nil .empty
  unfold addSuperclass
  cases f.baseName? doc
  case none => exact ⟨d.kind?_ref, d.children_ref⟩
  case some base =>
    rw [Option.map_some, buildPath, IsSuperclass, Option.bind_some]
    cases parts : Path.ofText? base
    case none => exact ⟨d.kind?_ref, d.children_ref⟩
    case some path =>
      have ne : path ≠ [] := (Path.ofText?_eq_some.mp parts).right ▸ Path.split_ne_nil base
      obtain ⟨g, r, added, -⟩ := exists_addPath f ne
      simp only [added]
      exact (addsPath_addPath v added).chain

/- The name -/

def IsName (f : Forest) (r : Ref) : Prop :=
  ∃ text, f.identifierText? r = some text ∧ text ≠ ""

-- A name that is there is used, and otherwise a new empty node stands in its place.
inductive Names (f g : Forest) (name className : Ref) : Prop
  | given (named : f.IsName name) (same : className = name)
  | missing (unnamed : ¬f.IsName name) (new : ¬f.Has className)
      (kind : g.kind? className = some .empty) (leaf : g.children className = [])

theorem names_of_addNameUnlessGiven (v : f.Valid) {cs : List Ref} (l : f.Loose (r :: cs))
    {className : Ref} (h : f.addNameUnlessGiven r = (g, className)) :
    f.Grows g ∧ g.Loose (className :: cs) ∧ f.Names g r className := by
  have missing (hn : ¬f.IsName r) (h : f.add .empty [] = (g, className)) :
      f.Grows g ∧ g.Loose (className :: cs) ∧ f.Names g r className := by
    have d := adds_add v .nil .empty
    have s := sprouts_addEmpty v
    rw [h] at d s
    exact ⟨s.grows, s.beside (l.sublist (List.sublist_cons_self ..)),
      .missing hn s.new d.kind?_ref d.children_ref⟩
  unfold addNameUnlessGiven at h
  split at h
  case h_1 text ht =>
    split at h
    case isTrue he => exact missing (by simp [IsName, ht, he]) h
    case isFalse he =>
      cases h
      exact ⟨.refl v, l, .given ⟨text, ht, he⟩ rfl⟩
  case h_2 ht => exact missing (by simp [IsName, ht]) h

/- The class -/

-- The parts of a function, and those of the class that takes its place.
structure Promoted where
  function : Ref
  name : Ref
  parameters : Ref
  body : Ref
  cls : Ref
  className : Ref
  superclass : Ref
  members : Ref
  constructor : Ref
  moved : Ref
  noName : Ref

-- The new nodes of a class, one on the other.
structure Builds (f g : Forest) (q : Promoted) (member : Node) : Prop where
  valid       : g.Valid
  ext         : g.Extends f
  new         : ∀ r ∈ [q.cls, q.members, q.constructor, q.moved, q.noName], g.Has r ∧ ¬f.Has r
  cls         : g.children q.cls = [q.className, q.superclass, q.members]
  members     : g.children q.members = [q.constructor]
  constructor : g.children q.constructor = [q.moved]
  moved       : g.children q.moved = [q.noName, q.parameters, q.body]
  other       : ∀ r, r ∉ [q.cls, q.members, q.constructor, q.moved] → g.children r = f.children r
  free        : g.parent q.cls = none
  kinds       : g.kind? q.cls = some .classDefinition ∧ g.kind? q.members = some .classMembers ∧
    g.kind? q.moved = some .function
  noName      : g.kind? q.noName = some .empty
  bare        : g.docIndex? q.moved = none
  label       : g.label? q.constructor = some member
  only        : ∀ {r}, g.Has r → r ∈ [q.cls, q.members, q.constructor, q.moved, q.noName] ∨ f.Has r

theorem builds_of_adds {q : Promoted} {f₁ f₂ f₃ f₄ f₅ : Forest} {n₁ n₂ n₃ n₄ n₅ : Node}
    (d₁ : f.Adds f₁ q.noName n₁ [])
    (d₂ : f₁.Adds f₂ q.moved n₂ [q.noName, q.parameters, q.body])
    (d₃ : f₂.Adds f₃ q.constructor n₃ [q.moved])
    (d₄ : f₃.Adds f₄ q.members n₄ [q.constructor])
    (d₅ : f₄.Adds f₅ q.cls n₅ [q.className, q.superclass, q.members])
    (h₁ : n₁.kind = .empty) (h₂ : n₂.kind = .function ∧ n₂.doc = none)
    (h₄ : n₄.kind = .classMembers) (h₅ : n₅.kind = .classDefinition) : f.Builds f₅ q n₃ := by
  have e₂ := d₂.ext.trans d₁.ext
  have e₃ := d₃.ext.trans e₂
  have e₄ := d₄.ext.trans e₃
  have c₃ := d₄.ext.has d₃.has_ref
  have m₂ := d₃.ext.has d₂.has_ref
  have m₃ := d₄.ext.has m₂
  have n₄ := d₄.ext.has <| d₃.ext.has <| d₂.ext.has d₁.has_ref
  refine ⟨d₅.valid, d₅.ext.trans e₄, ?new, d₅.children_ref, ?members, ?constructor, ?moved,
    fun r hr => ?other, d₅.free, ⟨?cls, ?memberList, ?function⟩, ?noName, ?bare, ?label,
    fun {r} hr => ?only⟩
  case new =>
    simp only [List.forall_mem_cons, List.not_mem_nil, false_implies, implies_true, and_true]
    exact ⟨⟨d₅.has_ref, fun h => d₅.not_has (e₄.has h)⟩,
      ⟨d₅.ext.has d₄.has_ref, fun h => d₄.not_has (e₃.has h)⟩,
      ⟨d₅.ext.has c₃, fun h => d₃.not_has (e₂.has h)⟩,
      ⟨d₅.ext.has m₃, fun h => d₂.not_has (d₁.ext.has h)⟩,
      ⟨d₅.ext.has n₄, d₁.not_has⟩⟩
  case members => rw [d₅.children_of_has d₄.has_ref, d₄.children_ref]
  case constructor =>
    rw [d₅.children_of_has c₃, d₄.children_of_has d₃.has_ref, d₃.children_ref]
  case moved =>
    rw [d₅.children_of_has m₃, d₄.children_of_has m₂, d₃.children_of_has d₂.has_ref,
      d₂.children_ref]
  case other =>
    simp only [List.mem_cons, List.not_mem_nil, or_false, not_or] at hr
    have ⟨h₅, h₄, h₃, h₂⟩ := hr
    rw [d₅.children, if_neg h₅, d₄.children, if_neg h₄, d₃.children, if_neg h₃, d₂.children,
      if_neg h₂, d₁.children]
    split
    case isTrue h => rw [h, children_of_not_has d₁.not_has]
    case isFalse => rfl
  case cls => rw [d₅.kind?_ref, h₅]
  case memberList => rw [d₅.ext.kind? d₄.has_ref, d₄.kind?_ref, h₄]
  case function =>
    rw [d₅.ext.kind? m₃, d₄.ext.kind? m₂, d₃.ext.kind? d₂.has_ref, d₂.kind?_ref, h₂.left]
  case noName =>
    have e := d₅.ext.trans (d₄.ext.trans (d₃.ext.trans d₂.ext))
    rw [e.kind? d₁.has_ref, d₁.kind?_ref, h₁]
  case bare =>
    have e := d₅.ext.trans (d₄.ext.trans d₃.ext)
    rw [e.docIndex? d₂.has_ref, docIndex?_eq_label?, d₂.label, Option.bind_some, h₂.right]
  case label => rw [d₅.ext.label c₃, d₄.ext.label d₃.has_ref, d₃.label]
  case only =>
    rw [d₅.has, d₄.has, d₃.has, d₂.has, d₁.has] at hr
    simp only [List.mem_cons, List.not_mem_nil, or_false]
    tauto

-- The class and what is new below it.
structure NewClass (f g : Forest) (q : Promoted) (member : Node) : Prop where
  new         : ∀ r ∈ [q.cls, q.superclass, q.members, q.constructor, q.moved, q.noName],
    g.Has r ∧ ¬f.Has r
  names       : f.Names g q.name q.className
  cls         : g.children q.cls = [q.className, q.superclass, q.members]
  members     : g.children q.members = [q.constructor]
  constructor : g.children q.constructor = [q.moved]
  moved       : g.children q.moved = [q.noName, q.parameters, q.body]
  other       : ∀ r, ¬f.Has r → r ∉ [q.cls, q.members, q.constructor, q.moved] →
    ∀ c ∈ g.children r, ¬f.Has c
  kinds       : g.kind? q.cls = some .classDefinition ∧ g.kind? q.members = some .classMembers ∧
    g.kind? q.moved = some .function
  noName      : g.kind? q.noName = some .empty
  bare        : g.docIndex? q.moved = none
  label       : g.label? q.constructor = some member
  only        : ∀ {r}, ¬f.Has r → g.Has r →
    r ∈ [q.cls, q.members, q.constructor, q.moved] ∨ g.IsSprout r

theorem Builds.newClass {q : Promoted} {member : Node} {f₁ f₂ : Forest} (b : f₂.Builds g q member)
    (g₁ : f.Grows f₁) (s₂ : f₁.Sprouts f₂ q.superclass) (hc : f₁.Has q.className)
    (names : f.Names f₁ q.name q.className) : f.NewClass g q member := by
  have g₂ := g₁.trans s₂.grows
  refine ⟨?new, ?names, b.cls, b.members, b.constructor, b.moved, fun r hr hq => ?other, b.kinds,
    b.noName, b.bare, b.label, fun {r} hr hg => ?only⟩
  case new =>
    have old {r : Ref} (h : r ∈ [q.cls, q.members, q.constructor, q.moved, q.noName]) :
        g.Has r ∧ ¬f.Has r :=
      ⟨(b.new r h).left, fun hr => (b.new r h).right (g₂.ext.has hr)⟩
    simp only [List.forall_mem_cons, List.not_mem_nil, false_implies, implies_true, and_true]
    exact ⟨old (by simp), ⟨b.ext.has s₂.has, fun h => s₂.new (g₁.ext.has h)⟩, old (by simp),
      old (by simp), old (by simp), old (by simp)⟩
  case names =>
    cases names
    case given hn e => exact .given hn e
    case missing hn new kind leaf =>
      refine .missing hn new ?_ ?_
      · rw [(b.ext.trans s₂.grows.ext).kind? hc, kind]
      · rw [b.other, s₂.grows.children hc, leaf]
        intro h
        exact (b.new _ (by simp at h ⊢; tauto)).right (s₂.grows.ext.has hc)
  case other =>
    rw [b.other r hq]
    exact g₂.fresh hr
  case only =>
    by_cases hq : r ∈ [q.cls, q.members, q.constructor, q.moved]
    case pos => exact .inl hq
    case neg =>
      by_cases h : f₂.Has r
      case pos => exact .inr <| (g₂.sprouts hr h).extend g₂.valid b.ext (b.other r hq)
      case neg =>
        have e : r = q.noName := by
          rcases b.only hg with hm | hm
          · simp only [List.mem_cons, List.not_mem_nil, or_false] at hm hq
            tauto
          · exact absurd hm h
        have leaf : g.children q.noName = [] := by rw [b.other _ (e ▸ hq), children_of_not_has (e ▸ h)]
        refine .inr <| e ▸ ⟨⟨_, by simp, b.noName⟩, isFormed_iff.mpr fun k hk => ?_⟩
        cases b.noName.symm.trans hk
        rw [leaf]
        rfl

-- What is below a new node is new, or was a part of the function.
theorem NewClass.of_mem_children {q : Promoted} {member : Node} (n : f.NewClass g q member)
    {c : Ref} (hr : ¬f.Has r) (hc : c ∈ g.children r) :
    ¬f.Has c ∨ c ∈ [q.name, q.parameters, q.body] := by
  have new {r : Ref} (h : r ∈ [q.superclass, q.members, q.constructor, q.moved, q.noName]) :
      ¬f.Has r :=
    (n.new r (List.mem_cons_of_mem _ h)).right
  by_cases hq : r ∈ [q.cls, q.members, q.constructor, q.moved]
  case neg => exact .inl (n.other r hr hq c hc)
  case pos =>
    simp only [List.mem_cons, List.not_mem_nil, or_false] at hq
    rcases hq with rfl | rfl | rfl | rfl
    case inl =>
      simp only [n.cls, List.mem_cons, List.not_mem_nil, or_false] at hc
      rcases hc with rfl | rfl | rfl
      case inl =>
        cases n.names
        case given _ e => exact .inr (by simp [e])
        case missing new _ _ => exact .inl new
      all_goals exact .inl (new (by simp))
    case inr.inl =>
      rw [n.members, List.mem_singleton] at hc
      exact .inl (new (by simp [hc]))
    case inr.inr.inl =>
      rw [n.constructor, List.mem_singleton] at hc
      exact .inl (new (by simp [hc]))
    case inr.inr.inr =>
      simp only [n.moved, List.mem_cons, List.not_mem_nil, or_false] at hc
      rcases hc with rfl | rfl | rfl
      case inl => exact .inl (new (by simp))
      all_goals exact .inr (by simp)

-- What is below the other new nodes stays among them.
theorem NewClass.other_closed {q : Promoted} {member : Node} (n : f.NewClass g q member) (v : g.Valid)
    (free : g.parent q.cls = none) {c : Ref}
    (hr : ¬f.Has r ∧ r ∉ [q.cls, q.members, q.constructor, q.moved]) (hc : c ∈ g.children r) :
    ¬f.Has c ∧ c ∉ [q.cls, q.members, q.constructor, q.moved] := by
  have above {c p : Ref} (below : c ∈ g.children p) : g.parent c = p := v.parent_eq below
  refine ⟨n.other r hr.left hr.right c hc, fun mem => hr.right ?_⟩
  have up := above hc
  simp only [List.mem_cons, List.not_mem_nil, or_false] at mem
  rcases mem with rfl | rfl | rfl | rfl
  case inl         => exact absurd (up.symm.trans free) (has_of_mem_children hc).ne_none
  case inr.inl     => simp [← up, above (p := q.cls) (c := q.members) (by simp [n.cls])]
  case inr.inr.inl => simp [← up, above (p := q.members) (c := q.constructor) (by simp [n.members])]
  case inr.inr.inr => simp [← up, above (p := q.constructor) (c := q.moved) (by simp [n.constructor])]

theorem NewClass.not_mem_of_kind {q : Promoted} {member : Node} (n : f.NewClass g q member)
    (isMember : member.kind = .memberFunction) {k : Kind}
    (hk : k ∈ [Kind.empty, .identifier, .propertyAccess]) (kind : g.kind? r = some k) :
    r ∉ [q.cls, q.members, q.constructor, q.moved] := by
  intro mem
  have ⟨cls, members, moved⟩ := n.kinds
  have constructor : g.kind? q.constructor = some .memberFunction := by
    rw [kind?_eq_label?, n.label, Option.map_some, isMember]
  simp only [List.mem_cons, List.not_mem_nil, or_false] at mem hk
  rcases mem with rfl | rfl | rfl | rfl
  · simp [Option.some.inj (cls.symm.trans kind).symm] at hk
  · simp [Option.some.inj (members.symm.trans kind).symm] at hk
  · simp [Option.some.inj (constructor.symm.trans kind).symm] at hk
  · simp [Option.some.inj (moved.symm.trans kind).symm] at hk

-- The member that takes the place of the function `n`.
def constructorNode (n : Node) (data doc : Nat) : Node where
  kind := .memberFunction
  flags := .synthesized
  pos := n.pos
  stop := n.stop
  data := some data
  doc := some doc

-- The class itself, and the function that is left of the one that it stands for.
def classNode (n : Node) : Node where
  kind := .classDefinition
  flags := .synthesized
  pos := n.pos
  stop := n.stop

def movedNode (n : Node) : Node where
  kind := .function
  pos := n.pos
  stop := n.stop

-- What the new nodes are apart from their edges.
structure Labels (f g : Forest) (q : Promoted) (n : Node) : Prop where
  function : f.label? q.function = some n
  cls      : g.label? q.cls = some (classNode n)
  members  : g.label? q.members = some { kind := .classMembers }
  moved    : g.label? q.moved = some (movedNode n)
  noName   : g.label? q.noName = some { kind := .empty }

-- What a new class is, beyond its edges.
structure Details (f g : Forest) (doc : Nat) (q : Promoted) : Prop where
  labels     : ∃ n, f.Labels g q n
  superclass : g.IsSuperclass q.superclass (f.baseName? doc)

theorem baseName?_congr (docs : g.docs = f.docs) (doc : Nat) : g.baseName? doc = f.baseName? doc := by
  rw [baseName?, baseName?, docs]

theorem Adds.markPromoted {cs : List Ref} {n m : Node} {function : Ref} (d : f.Adds g r n cs)
    (hm : f.label? function = some m) :
    f.Adds (g.markPromoted function r) r
      { n with flags := n.flags.union .synthesized, pos := m.pos, stop := m.stop } cs :=
  (d.copySpan hm).addFlags .synthesized

theorem Adds.markConstructor {cs : List Ref} {m : Node} {function : Ref} {data doc : Nat}
    (d : f.Adds g r { kind := .memberFunction, data := some data } cs)
    (hm : f.label? function = some m) (hd : doc < f.docs.size) :
    f.Adds ((g.markPromoted function r).setDoc r (some doc)) r (constructorNode m data doc) cs := by
  have d := (d.markPromoted hm).setDoc (some doc) fun hi => by
    cases hi
    exact hd
  rw [Flags.empty_union] at d
  exact d

theorem newClass_of_addPromoted (v : f.Valid) {function name parameters body cls : Ref} {doc : Nat}
    {n : Node} (hf : f.label? function = some n) (l : f.Loose [name, parameters, body])
    (hd : doc < f.docs.size) (h : f.addPromoted function name parameters body doc = (g, cls)) :
    ∃ (q : Promoted) (data : Nat) (f₂ : Forest), q.function = function ∧ q.name = name ∧
      q.parameters = parameters ∧ q.body = body ∧ q.cls = cls ∧ f.Grows f₂ ∧
      f₂.Builds g q (constructorNode n data doc) ∧ f.NewClass g q (constructorNode n data doc) ∧
      g.texts[data]? = some "constructor" ∧ f.Details g doc q := by
  have keep {g : Forest} (e : g.Extends f) : g.label? function = some n :=
    (e.label (has_iff_label?.mpr (by simp [hf]))).trans hf
  unfold addPromoted at h
  rcases e₁ : f.addNameUnlessGiven name with ⟨f₁, className⟩
  have ⟨g₁, l₁, names⟩ := names_of_addNameUnlessGiven v l e₁
  rcases e₂ : f₁.addSuperclass doc with ⟨f₂, superclass⟩
  have s₂ := sprouts_addSuperclass g₁.valid doc
  have base := isSuperclass_addSuperclass g₁.valid doc
  rw [e₂] at s₂ base
  have g₂ := g₁.trans s₂.grows
  have l₂ : f₂.Loose ([className, superclass] ++ ([] ++ [parameters, body])) :=
    (s₂.beside l₁).perm (.swap ..)
  simp only [e₁, e₂, addFunction, addClass] at h
  rcases e₃ : f₂.add .empty [] with ⟨f₃, noName⟩
  have d₃ := adds_add g₂.valid .nil .empty
  rw [e₃] at d₃ h
  have l₃ := d₃.exchange _ _ l₂
  rcases e₄ : f₃.add .function [noName, parameters, body] with ⟨f₄, moved⟩
  have d₄ := adds_add d₃.valid (l₃.sublist (List.sublist_append_right ..)) .function
  rw [e₄] at d₄
  replace d₄ := d₄.copySpan (keep (d₃.ext.trans g₂.ext))
  have l₄ := d₄.exchange [className, superclass] [] l₃
  rcases e₅ : (f₄.copySpan function moved).addMember "constructor" false moved
    with ⟨f₅, constructor⟩
  have ⟨d₅, ht⟩ := adds_addMember d₄.valid (l₄.sublist (List.sublist_append_right ..))
    "constructor" false
  simp only [e₄, e₅] at h d₅ ht
  have g₄ := d₄.ext.trans (d₃.ext.trans g₂.ext)
  replace d₅ := d₅.markConstructor (keep g₄) (g₄.docs ▸ hd)
  have l₅ := d₅.exchange [className, superclass] [] l₄
  replace ht : ((f₅.markPromoted function constructor).setDoc constructor (some doc)).texts[
      (f₄.copySpan function moved).texts.size]? = some "constructor" := by
    simp [markPromoted, ht]
  generalize (f₅.markPromoted function constructor).setDoc constructor (some doc) = f₅ at h d₅ l₅ ht
  rcases e₆ : f₅.add .classMembers [constructor] with ⟨f₆, members⟩
  have d₆ := adds_add d₅.valid (l₅.sublist (List.sublist_append_right ..)) .classMembers
  rw [e₆] at d₆ h
  have l₆ : f₆.Loose [className, superclass, members] := d₆.exchange _ [] l₅
  rcases e₇ : f₆.add .classDefinition [className, superclass, members] with ⟨f₇, cls⟩
  have d₇ := adds_add d₆.valid l₆ .classDefinition
  simp only [e₇] at d₇
  simp only [e₇, Prod.mk.injEq] at h
  obtain ⟨rfl, rfl⟩ := h
  replace d₇ := d₇.markPromoted (keep (d₆.ext.trans (d₅.ext.trans g₄)))
  rw [Flags.empty_union] at d₇
  let q : Promoted :=
    ⟨function, name, parameters, body, cls, className, superclass, members, constructor, moved, noName⟩
  have b : f₂.Builds _ q _ := builds_of_adds d₃ d₄ d₅ d₆ d₇ rfl ⟨rfl, rfl⟩ rfl rfl
  have e₆ := d₇.ext.trans d₆.ext
  have e₄ := e₆.trans d₅.ext
  have labels : f.Labels _ q n := {
    function := hf
    cls      := d₇.label
    members  := (d₇.ext.label d₆.has_ref).trans d₆.label
    moved    := (e₄.label d₄.has_ref).trans d₄.label
    noName   := ((e₄.trans d₄.ext).label d₃.has_ref).trans d₃.label }
  have superclass := base.transfer b.ext (P := f₂.Has) (fun _ hc => g₂.valid.has_child hc)
    (fun _ hx => b.other _ fun h => (b.new _ (by simp at h ⊢; tauto)).right hx) s₂.has
  rw [baseName?_congr g₁.ext.docs] at superclass
  exact ⟨q, _, f₂, rfl, rfl, rfl, rfl, rfl, g₂, b,
    b.newClass g₁ s₂ (l₁.has _ (List.mem_cons_self ..)) names, e₆.texts_getElem? ht, ⟨n, labels⟩, superclass⟩

/- The whole promotion -/

structure Promotes (f g : Forest) (doc : Nat) (q : Promoted) : Prop where
  valid    : g.Valid
  ext      : g.Extends f
  attached : f.parent q.function ≠ none
  parts    : f.children q.function = [q.name, q.parameters, q.body]
  old      : ∀ {r}, f.Has r → g.children r = if r = q.function then [] else
    (f.children r).map fun c => if c = q.function then q.cls else c
  newClass : ∃ n data, f.label? q.function = some n ∧ g.texts[data]? = some "constructor" ∧
    f.NewClass g q (constructorNode n data doc)

theorem NewClass.congr {q : Promoted} {member : Node} (n : f.NewClass g q member)
    (hc : ∀ r, ¬f.Has r → h.children r = g.children r) (hl : ∀ r, h.label? r = g.label? r) :
    f.NewClass h q member := by
  have new {r : Ref} (hr : r ∈ [q.cls, q.superclass, q.members, q.constructor, q.moved, q.noName]) :
      ¬f.Has r :=
    (n.new r hr).right
  have kind (r : Ref) : h.kind? r = g.kind? r := by
    rw [kind?_eq_label?, hl, ← kind?_eq_label?]
  refine ⟨fun r hr => ?new, ?names, ?cls, ?members, ?constructor, ?moved, fun r hr hq => ?other,
    ?kinds, (kind _).trans n.noName, ?bare, ?label, fun {r} hr hh => ?only⟩
  case new =>
    rw [has_iff_label?, hl, ← has_iff_label?]
    exact n.new r hr
  case names =>
    cases n.names
    case given hn e => exact .given hn e
    case missing hn hc' hk leaf => exact .missing hn hc' ((kind _).trans hk) ((hc _ hc').trans leaf)
  case cls => rw [hc _ (new (by simp)), n.cls]
  case members => rw [hc _ (new (by simp)), n.members]
  case constructor => rw [hc _ (new (by simp)), n.constructor]
  case moved => rw [hc _ (new (by simp)), n.moved]
  case other =>
    rw [hc r hr]
    exact n.other r hr hq
  case kinds => simpa [kind] using n.kinds
  case bare => rw [docIndex?_eq_label?, hl, ← docIndex?_eq_label?, n.bare]
  case label => rw [hl, n.label]
  case only =>
    rw [has_iff_label?, hl, ← has_iff_label?] at hh
    refine (n.only hr hh).imp_right fun s => ?_
    obtain ⟨k, hk, hg⟩ := s.kind
    refine ⟨⟨k, hk, (kind r).trans hg⟩, ?_⟩
    rw [isFormed, kind, hc r hr, List.map_congr_left fun c _ => kind c]
    exact s.formed

theorem Empties.loose (d : f.Empties g r) (v : f.Valid) : g.Loose (f.children r) where
  has c hc  := d.rewires.has.mpr (v.has_child hc)
  free c hc := by rw [d.parent, if_pos hc]
  nodup     := v.nodup r

theorem IsName.of_rewires (e : g.Rewires f) (v : f.Valid) (hr : f.Has r) :
    g.IsName r ↔ f.IsName r := by
  unfold IsName
  rw [e.extends.identifierText? v hr]

theorem NewClass.of_rewires {q : Promoted} {member : Node} (n : g.NewClass h q member)
    (e : g.Rewires f) (v : f.Valid) (hr : f.Has q.name) : f.NewClass h q member where
  new r hr        := ⟨(n.new r hr).left, fun hf => (n.new r hr).right (e.has.mpr hf)⟩
  names           := by
    cases n.names
    case given hn he => exact .given ((IsName.of_rewires e v hr).mp hn) he
    case missing hn hc hk leaf =>
      exact .missing (fun hf => hn ((IsName.of_rewires e v hr).mpr hf)) (fun hf => hc (e.has.mpr hf))
        hk leaf
  cls             := n.cls
  members         := n.members
  constructor     := n.constructor
  moved           := n.moved
  other r hr hq c hc := fun hf =>
    n.other r (fun hg => hr (e.has.mp hg)) hq c hc (e.has.mpr hf)
  kinds           := n.kinds
  noName          := n.noName
  bare            := n.bare
  label           := n.label
  only hr         := n.only fun hg => hr (e.has.mp hg)

theorem Details.of_rewires {doc : Nat} {q : Promoted} (d : g.Details h doc q) (e : g.Rewires f) :
    f.Details h doc q :=
  have ⟨⟨n, l⟩, superclass⟩ := d
  ⟨⟨n, (e.label _).symm.trans l.function, l.cls, l.members, l.moved, l.noName⟩,
    baseName?_congr e.docs doc ▸ superclass⟩

-- The class beside the function that it is to replace. The function has lost its parts to it.
structure Prepares (f g : Forest) (doc : Nat) (q : Promoted) : Prop where
  valid    : g.Valid
  ext      : g.Extends f
  parts    : f.children q.function = [q.name, q.parameters, q.body]
  old      : ∀ {r}, f.Has r → g.children r = if r = q.function then [] else f.children r
  free     : g.parent q.cls = none
  newClass : ∃ n data, f.label? q.function = some n ∧ g.texts[data]? = some "constructor" ∧
    f.NewClass g q (constructorNode n data doc)

theorem prepares_of_addPromoted (v : f.Valid) {b : Forest} {function name parameters body cls : Ref}
    {doc : Nat} (hd : doc < f.docs.size)
    (hb : f.detachChildren function = .ok (b, [name, parameters, body]))
    (ha : b.addPromoted function name parameters body doc = (g, cls)) :
    ∃ q : Promoted, q.function = function ∧ q.cls = cls ∧ f.Prepares g doc q ∧ f.Details g doc q := by
  have hf : f.Has function := (detachChildren_ok hb).left
  obtain ⟨n, hn⟩ := Option.isSome_iff_exists.mp <| has_iff_label?.mp hf
  have ⟨parts, eb⟩ := empties_of_ok v hb
  obtain ⟨q, data, f₂, rfl, rfl, rfl, rfl, rfl, g₂, builds, newClass, text, details⟩ :=
    newClass_of_addPromoted (eb.valid v) ((eb.rewires.label _).trans hn) (parts ▸ eb.loose v)
      (eb.rewires.docs ▸ hd) ha
  have hN : f.Has q.name := v.has_child (p := q.function) (by simp [← parts])
  refine ⟨q, rfl, rfl, ⟨builds.valid, builds.ext.trans (g₂.ext.trans eb.rewires.extends), parts.symm,
    fun {r} hr => ?old, builds.free, n, data, hn, text, newClass.of_rewires eb.rewires v hN⟩,
    details.of_rewires eb.rewires⟩
  have hb := eb.rewires.has.mpr hr
  rw [builds.other, g₂.children hb, eb.children]
  exact fun h => (builds.new r (by simp at h ⊢; tauto)).right (g₂.ext.has hb)

namespace Prepares

variable {doc : Nat} {q : Promoted} (p : f.Prepares g doc q) (v : f.Valid)
include p

theorem new_cls : g.Has q.cls ∧ ¬f.Has q.cls :=
  have ⟨_, _, _, _, n⟩ := p.newClass
  n.new _ (List.mem_cons_self ..)

theorem of_mem_children {c : Ref} (hr : ¬f.Has r) (hc : c ∈ g.children r) :
    ¬f.Has c ∨ c ∈ [q.name, q.parameters, q.body] :=
  have ⟨_, _, _, _, n⟩ := p.newClass
  n.of_mem_children hr hc

include v

-- The function is not below a new node.
theorem not_mem_children (hF : f.Has q.function) (hr : ¬f.Has r) : q.function ∉ g.children r := by
  intro hm
  rcases p.of_mem_children hr hm with h | h
  · exact h hF
  · exact v.not_contains_of_child (p.parts ▸ h) .refl

theorem parent_function (hF : f.Has q.function) : g.parent q.function = f.parent q.function := by
  by_cases attached : f.parent q.function = none
  case neg =>
    refine p.valid.parent_eq ?_
    rw [p.old (v.has_parent attached), if_neg (v.parent_ne hF.ne_none)]
    exact v.mem_parent attached
  case pos =>
    rw [attached]
    by_contra h
    have hm := p.valid.mem_parent h
    have hp : f.Has (g.parent q.function) := by
      by_contra hp
      exact p.not_mem_children v hF hp hm
    rw [p.old hp] at hm
    split at hm
    case isTrue => cases hm
    case isFalse => exact h ((v.parent_eq hm).symm.trans attached)

-- What is not below the function has no new node above it.
theorem has_above (hc : g.Contains r object) (hr : r ≠ none) (ho : f.Has object)
    (out : ¬f.Contains q.function object) : f.Has r := by
  induction hc
  case refl => exact ho
  case up x hc ih =>
    have hm := p.valid.mem_parent (hc.ne_none hr)
    by_cases hp : f.Has (g.parent x)
    case neg =>
      rcases p.of_mem_children hp hm with h | h
      · exact absurd ho h
      · exact absurd (v.contains_child (p.parts ▸ h)) out
    case pos =>
      rw [p.old hp] at hm
      split at hm
      case isTrue => cases hm
      case isFalse => exact ih hp fun h => out (h.trans (v.contains_child hm))

theorem exists_replaceWith (attached : f.parent q.function ≠ none) :
    ∃ h, g.replaceWith q.function q.cls = .ok h := by
  have hF := has_of_parent_ne_none attached
  have hp := p.parent_function v hF
  refine Forest.exists_replaceWith p.valid (hp ▸ attached) p.new_cls.left p.free fun hc => ?_
  rw [hp] at hc
  exact p.new_cls.right <| p.has_above v hc p.new_cls.left.ne_none (v.has_parent attached)
    (v.not_contains_parent hF.ne_none)

theorem promotes (hr : g.replaceWith q.function q.cls = .ok h) : f.Promotes h doc q := by
  obtain ⟨n, data, hn, text, newClass⟩ := p.newClass
  have hF : f.Has q.function := has_iff_label?.mpr (by simp [hn])
  have er := replaces_of_ok p.valid (replaceWith_eq_ok.mp hr).right
  refine ⟨er.valid p.valid, er.rewires.extends.trans p.ext, ?attached, p.parts, fun hr => ?old,
    n, data, hn, er.rewires.texts ▸ text, ?newClass⟩
  case attached =>
    have hp : f.Has (g.parent q.function) := by
      by_contra hp
      exact p.not_mem_children v hF hp er.mem
    have hm := p.old hp ▸ er.mem
    split at hm
    case isTrue => cases hm
    case isFalse => exact v.parent_eq hm ▸ (replaceWith_eq_ok.mp hr).left
  case old =>
    rw [er.children_map p.valid, p.old hr]
    split <;> rfl
  case newClass =>
    refine newClass.congr (fun r hr => ?_) er.rewires.label
    rw [er.children, List.replace_of_not_mem (p.not_mem_children v hF hr)]

-- The chain of the superclass is among the new nodes, and none of them has the function below it.
theorem details (hr : g.replaceWith q.function q.cls = .ok h) (d : f.Details g doc q) :
    f.Details h doc q := by
  obtain ⟨⟨n, l⟩, superclass⟩ := d
  have hF : f.Has q.function := has_iff_label?.mpr (by simp [l.function])
  have er := replaces_of_ok p.valid (replaceWith_eq_ok.mp hr).right
  have label (r : Ref) : h.label? r = g.label? r := er.rewires.label r
  refine ⟨⟨n, l.function, ?_, ?_, ?_, ?_⟩, ?superclass⟩
  · rw [label, l.cls]
  · rw [label, l.members]
  · rw [label, l.moved]
  · rw [label, l.noName]
  case superclass =>
    obtain ⟨_, _, -, -, newClass⟩ := p.newClass
    obtain ⟨_, hk, kind⟩ := superclass.kind
    refine superclass.transfer er.rewires.extends
      (fun hx hc => newClass.other_closed p.valid p.free hx hc) (fun _ hx => ?_)
      ⟨(newClass.new _ (by simp)).right, newClass.not_mem_of_kind rfl hk kind⟩
    rw [er.children, List.replace_of_not_mem (p.not_mem_children v hF hx.left)]

end Prepares

namespace Promotes

variable {doc : Nat} {q : Promoted}

theorem has_function (p : f.Promotes g doc q) : f.Has q.function :=
  has_of_parent_ne_none p.attached

theorem parent_part (p : f.Promotes g doc q) (v : f.Valid)
    (h : r ∈ [q.name, q.parameters, q.body]) : f.parent r = q.function :=
  v.parent_eq <| p.parts ▸ h

theorem new_cls (p : f.Promotes g doc q) : g.Has q.cls ∧ ¬f.Has q.cls :=
  have ⟨_, _, _, _, n⟩ := p.newClass
  n.new _ (List.mem_cons_self ..)

theorem kind_cls (p : f.Promotes g doc q) : g.kind? q.cls = some .classDefinition :=
  have ⟨_, _, _, _, n⟩ := p.newClass
  n.kinds.left

theorem kind_old (p : f.Promotes g doc q) (hk : g.kind? r = some .classDefinition)
    (hr : r ≠ q.cls) : f.kind? r = some .classDefinition := by
  by_cases hf : f.Has r
  case pos => exact (p.ext.kind? hf).symm.trans hk
  case neg =>
    obtain ⟨_, _, _, _, n⟩ := p.newClass
    rcases n.only hf (has_of_kind? hk) with hq | s
    case inr => exact absurd hk (s.kind_ne (by simp))
    case inl =>
      simp only [List.mem_cons, List.not_mem_nil, or_false] at hq
      rcases hq with rfl | rfl | rfl | rfl
      · exact absurd rfl hr
      · cases n.kinds.right.left.symm.trans hk
      · simp [kind?_eq_label?, n.label, constructorNode] at hk
      · cases n.kinds.right.right.symm.trans hk

-- What is below a new node is new, or was a part of the function.
theorem of_mem_children (p : f.Promotes g doc q) {c : Ref} (hr : ¬f.Has r) (hc : c ∈ g.children r) :
    ¬f.Has c ∨ c ∈ [q.name, q.parameters, q.body] :=
  have ⟨_, _, _, _, n⟩ := p.newClass
  n.of_mem_children hr hc

-- Only the function and its parts are moved.
theorem parent_of_ne (p : f.Promotes g doc q) (v : f.Valid) (hr : f.Has r) (hn : r ≠ q.function)
    (hp : f.parent r ≠ q.function) : g.parent r = f.parent r := by
  by_cases hnone : f.parent r = none
  case neg =>
    have hm : r ∈ g.children (f.parent r) := by
      rw [p.old (v.has_parent hnone), if_neg hp]
      exact List.mem_map.mpr ⟨r, v.mem_parent hnone, if_neg hn⟩
    exact p.valid.parent_eq hm
  case pos =>
    rw [hnone]
    by_contra h
    have hm := p.valid.mem_parent h
    by_cases hq : f.Has (g.parent r)
    case neg =>
      rcases p.of_mem_children hq hm with hm | hm
      · exact hm hr
      · exact hp (p.parent_part v hm)
    case pos =>
      rw [p.old hq] at hm
      split at hm
      case isTrue => cases hm
      case isFalse =>
        obtain ⟨c, hc, e⟩ := List.mem_map.mp hm
        split at e
        case isTrue => exact p.new_cls.right (e ▸ hr)
        case isFalse =>
          have ⟨e', hne⟩ := v.mem_children.mp (e ▸ hc)
          exact hne (e'.symm.trans hnone)

-- The class is where the function was.
theorem parent_cls (p : f.Promotes g doc q) (v : f.Valid) : g.parent q.cls = f.parent q.function := by
  refine p.valid.parent_eq ?_
  rw [p.old (v.has_parent p.attached), if_neg (v.parent_ne p.has_function.ne_none)]
  exact List.mem_map.mpr ⟨_, v.mem_parent p.attached, if_pos rfl⟩

end Promotes

end Forest

namespace Workspace

variable {w w' : Workspace}

@[simp]
theorem forest_countPromotion : w.countPromotion.forest = w.forest := rfl

-- The finding that keeps a node from defining its name.
def refusal? (w : Workspace) (r : Ref) : Option Finding :=
  (w.forest.nearestName? r).bind (w.registry.refusal? w.forest · r)

-- The ways a promotion ends without an error.
inductive PromoteOk (w : Workspace) (doc : Nat) (function : Ref) : Option Ref → Workspace → Prop
  | refused {finding : Finding} (taken : w.refusal? function = some finding) :
    PromoteOk w doc function none (w.note finding)
  | promoted {q : Forest.Promoted} {g : Forest} (free : w.refusal? function = none)
    (ofFunction : q.function = function) (promotes : w.forest.Promotes g doc q) :
    PromoteOk w doc function (some q.cls)
      (({ w with forest := g }.countPromotion).define (w.forest.nearestName? function) q.cls)

theorem promoteAs_ok (v : w.forest.Valid) {name : Option String} {function cls : Ref} {doc : Nat}
    (hd : doc < w.forest.docs.size) (h : w.promoteAs name function doc = (.ok cls, w')) :
    ∃ (q : Forest.Promoted) (g : Forest), q.function = function ∧ q.cls = cls ∧
      w.forest.Promotes g doc q ∧ w' = ({ w with forest := g }.countPromotion).define name cls ∧
      w.forest.Details g doc q := by
  unfold promoteAs at h
  split at h
  case h_1 b n p d hb =>
    rcases ha : b.addPromoted function n p d doc with ⟨f, cls'⟩
    simp only [ha] at h
    obtain ⟨q, rfl, rfl, p, details⟩ := Forest.prepares_of_addPromoted v hd hb ha
    split at h
    case h_1 g hg =>
      cases h
      exact ⟨q, g, rfl, rfl, p.promotes v hg, rfl, p.details v hg details⟩
    case h_2 => cases h
  case h_2 => cases h
  case h_3 => cases h

theorem promote_ok (v : w.forest.Valid) {function : Ref} {doc : Nat} {result : Option Ref}
    (hd : doc < w.forest.docs.size) (h : w.promote function doc = (.ok result, w')) :
    w.PromoteOk doc function result w' := by
  unfold promote at h
  split at h
  case h_1 => cases h
  case h_2 =>
    simp only at h
    split at h
    case h_1 finding taken =>
      cases h
      exact .refused taken
    case h_2 free =>
      rcases ha : w.promoteAs (w.forest.nearestName? function) function doc with ⟨out, w₁⟩
      simp only [ha, Prod.mk.injEq] at h
      obtain ⟨h, rfl⟩ := h
      cases out
      case error => cases h
      case ok cls =>
        cases h
        obtain ⟨q, g, hq, rfl, hp, rfl, -⟩ := promoteAs_ok v hd ha
        exact .promoted free hq hp

end Workspace

end ClassLift
