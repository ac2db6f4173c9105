import ClassLift.Proofs.Convert.Members

/-!
The nodes that a conversion makes. They have the children that their kinds call for, and a function
among them is the bare one of a new member, so that it is no constructor of its own.
-/

namespace ClassLift

-- The kinds of the nodes that a conversion makes.
def Kind.isMade : Kind → Bool
  | empty | identifier | propertyAccess | function | classDefinition | classMembers | memberFunction =>
    true
  | _ => false

open Forest

structure IsMade (f g : Forest) (r : Ref) : Prop where
  grammatical : g.isGrammatical r
  kind        : ∃ k, g.kind? r = some k ∧ k.isMade
  function    : g.kind? r = some .function → g.docIndex? r = none ∧
    ∃ member, ¬f.Has member ∧ g.kind? member = some .memberFunction ∧ r ∈ g.children member

variable {options : Options} {f g : Forest} {script r x : Ref} {done done' rest : List Ref}
variable {log : Log} {w w' : Workspace} {m : MemberAssignment} {member members : Ref} {name : String}
variable {isStatic : Bool} {change : Option Change} {k : Kind}

namespace IsMade

theorem of_kind (hk : g.kind? r = some k) (hm : k.isMade) (hn : k ≠ .function)
    (h : k.permits ((g.children r).map g.kind?)) : IsMade f g r where
  grammatical := isGrammatical_of_kind hk h
  kind        := ⟨k, hk, hm⟩
  function e  := absurd (Option.some.inj (hk.symm.trans e)) hn

theorem of_isSprout (s : g.IsSprout r) : IsMade f g r := by
  obtain ⟨k, mem, hk⟩ := s.kind
  have accepts := accepts_of_formed s.formed hk
  simp only [List.mem_cons, List.not_mem_nil, or_false] at mem
  rcases mem with rfl | rfl | rfl <;> exact of_kind hk rfl (by simp) accepts

theorem of_promotes {q : Promoted} {doc : Nat} (p : Progress f done log w) (parts : Parts f w.forest q)
    (e : w.forest.Promotes g doc q) (hr : ¬w.forest.Has r) (hg : g.Has r) : IsMade f g r := by
  obtain ⟨n, data, -, -, c⟩ := e.newClass
  have original {x : Ref} {k : Kind} (h : f.kind? x = some k) : g.kind? x = some k := by
    rw [e.ext.kind? (p.ext.has (has_of_kind? h)), p.ext.kind? (has_of_kind? h), h]
  have className : g.kind? q.className = some .identifier ∨ g.kind? q.className = some .empty := by
    cases c.names
    case given _ same => exact same ▸ parts.name.imp original original
    case missing _ _ kind _ => exact .inr kind
  have constructor : g.kind? q.constructor = some .memberFunction := by
    simp [kind?_eq_label?, c.label, constructorNode]
  obtain ⟨kc, km, kf⟩ := c.kinds
  rcases c.only hr hg with hq | s
  case inr => exact of_isSprout s
  case inl =>
    simp only [List.mem_cons, List.not_mem_nil, or_false] at hq
    rcases hq with rfl | rfl | rfl | rfl
    · refine of_kind kc rfl (by simp) ?_
      rcases className with h | h <;> simp [c.cls, h, km, Kind.permits, Kind.accepts]
    · exact of_kind km rfl (by simp) (by simp [c.members, constructor, Kind.permits])
    · exact of_kind constructor rfl (by simp) (by simp [c.constructor, kf, Kind.permits, Kind.accepts])
    · refine ⟨isGrammatical_of_kind kf ?_, ⟨_, kf, rfl⟩, fun _ =>
        ⟨c.bare, q.constructor, ?_, constructor, ?_⟩⟩
      · simp [c.moved, c.noName, original parts.parameters, original parts.body, Kind.permits, Kind.accepts]
      · exact fun h => (c.new q.constructor (by simp)).right (p.ext.has h)
      · simp [c.constructor]

theorem of_merges (isMethod : m.isMethod w.forest) (e : w.forest.Merges g m members member name isStatic)
    (hr : ¬w.forest.Has r) (hg : g.Has r) : IsMade f g r := by
  obtain rfl := (e.nodes hg).resolve_right hr
  obtain ⟨n, data, -, label⟩ := e.label
  have kind : g.kind? r = some .memberFunction := by simp [kind?_eq_label?, label, memberNode]
  have value : g.kind? m.value = some .function := by
    rw [e.ext.kind? (has_of_parent_ne_none e.attached.right), isKind_iff.mp isMethod]
  exact of_kind kind rfl (by simp) (by simp [e.below, value, Kind.permits, Kind.accepts])

-- What is below a new node stays there, and only lists of members get more.
theorem step (h : IsMade f w.forest r) (hr : ¬f.Has r) (t : Stays f log change w w')
    (p : Progress f done log w) (p' : Progress f done' (log ++ change.toList) w') :
    IsMade f w'.forest r := by
  obtain ⟨k, hk, made⟩ := h.kind
  have has := has_of_kind? hk
  have kind := (t.ext.kind? has).trans hk
  have kinds : (w.forest.children r).map w'.forest.kind? = (w.forest.children r).map w.forest.kind? :=
    List.map_congr_left fun c hc => t.ext.kind? (p.valid.has_child hc)
  have permits := permits_of_grammatical h.grammatical hk
  refine ⟨isGrammatical_of_kind kind ?grammatical, ⟨k, kind, made⟩, fun e => ?function⟩
  case grammatical =>
    by_cases hm : k = .classMembers
    case neg => rwa [t.children_of_kind p' hr hk hm, kinds]
    case pos =>
      subst hm
      simp only [Kind.permits, List.all_eq_true] at permits ⊢
      rw [t.children hr has, List.map_append, kinds]
      intro x hx
      rcases List.mem_append.mp hx with hx | hx
      · exact permits x hx
      · obtain ⟨c, hc, rfl⟩ := List.mem_map.mp hx
        simp [t.member (List.mem_filter.mp hc).left]
  case function =>
    obtain ⟨bare, member, new, km, mem⟩ := h.function (t.ext.kind? has ▸ e)
    refine ⟨(t.ext.docIndex? has).trans bare, member, new, (t.ext.kind? (has_of_kind? km)).trans km, ?_⟩
    rwa [t.children_of_kind p' new km (by simp)]

end IsMade

theorem Run.made (run : Run options f done log w) (v : f.Valid) (s : f.Formed script)
    (hs : f.kind? script = some .script) (order : f.postorder script = done ++ rest) (hr : ¬f.Has r)
    (has : w.forest.Has r) : IsMade f w.forest r := by
  refine run.invariant (motive := fun _ _ w => ∀ {r}, ¬f.Has r → w.forest.Has r → IsMade f w.forest r)
    v (has_of_kind? hs) order (fun hr h => absurd h hr) ?_ hr has
  intro done log w x rest change w' order run made visited r hr has
  have p := run.progress v (has_of_kind? hs) order
  have turn := turn_of_postorder v (has_of_kind? hs) order
  have ⟨hc, _⟩ := contains_of_postorder v (has_of_kind? hs) order
  by_cases old : w.forest.Has r
  case pos =>
    have stays := Stays.of_visited p v turn.has turn.fresh visited
    exact (made hr old).step hr stays p (p.step v turn.has turn.fresh turn.children visited)
  case neg =>
    rcases visited.change_cases with rfl | ⟨cls, rfl⟩ | ⟨m, member, rfl, rfl⟩
    case inl => exact absurd (visited.forest_eq ▸ has) old
    case inr.inl =>
      obtain ⟨-, doc, q, rfl, rfl, kind, -, promotes⟩ := visited.of_promotion
      have parts := p.parts v (s.below hc) turn.fresh (p.kind?_eq turn.has kind) promotes
      exact .of_promotes p parts promotes old has
    case inr.inr =>
      obtain ⟨-, view, -, isMethod, cls, className, name, joins, -, merges⟩ := visited.of_merge
      exact .of_merges isMethod merges old has

end ClassLift
