import ClassLift.Proofs.Convert.Belonging

/-!
The order of a script. What a merge moves ends up in a class that was visited before the statement, so
that it only moves forward, and what no merge moves stays in the statement that it was in.
-/

namespace ClassLift

open Forest

variable {f g : Forest} {script r x y c d : Ref} {done rest : List Ref} {log : Log} {w w' : Workspace}
variable {m : MemberAssignment} {member : Ref} {options : Options} {change : Option Change}

/- What is visited before a statement -/

namespace Forest

-- The place of a child among the children of the script.
def place (f : Forest) (script c : Ref) : Nat :=
  (f.children script).idxOf c

theorem place_le_iff {front back : List Ref} (v : f.Valid)
    (h : f.children script = front ++ r :: back) :
    f.place script c ≤ f.place script r ↔ c ∈ front ∨ c = r := by
  have hr : r ∉ front := fun hm => by
    have nodup := h ▸ v.nodup script
    exact (List.nodup_append.mp nodup).right.right r hm r (by simp) rfl
  rw [place, place, h, List.idxOf_append (a := r), if_neg hr, List.idxOf_cons_self, Nat.zero_add,
    List.idxOf_append]
  by_cases hc : c ∈ front
  case pos => simp [hc, (List.idxOf_lt_length_of_mem hc).le]
  case neg =>
    rw [if_neg hc]
    by_cases e : c = r
    case pos => simp [e]
    case neg => simp [hc, e, Ne.symm e]

-- That is all that is below a statement before it, and what is below itself.
theorem mem_before_iff (v : f.Valid) (hs : f.Has script) (hr : r ∈ f.children script) :
    x ∈ f.before script r ↔ x ≠ r ∧
      ∃ c ∈ f.children script, f.Contains c x ∧ f.place script c ≤ f.place script r := by
  obtain ⟨front, back, split⟩ := List.append_of_mem hr
  have has := v.has_child hr
  have order : f.postorder script = (front.flatMap f.postorder ++ (f.children r).flatMap f.postorder) ++
      r :: (back.flatMap f.postorder ++ [script]) := by
    simp [v.postorder_eq hs.ne_none, split, v.postorder_eq has.ne_none]
  have fresh := v.not_mem_before hs.ne_none order
  have upTo : (front.flatMap f.postorder ++ (f.children r).flatMap f.postorder) ++ [r] =
      (front ++ [r]).flatMap f.postorder := by
    simp [v.postorder_eq has.ne_none]
  have self : x ∈ f.before script r ↔ x ≠ r ∧ x ∈ (front ++ [r]).flatMap f.postorder := by
    rw [before_eq v hs order, ← upTo]
    constructor
    case mp => exact fun hx => ⟨fun e => fresh (e ▸ hx), List.mem_append_left _ hx⟩
    case mpr =>
      rintro ⟨hn, hx⟩
      exact (List.mem_append.mp hx).resolve_right (by simpa using hn)
  rw [self, List.mem_flatMap]
  refine and_congr_right fun _ => exists_congr fun c => ?_
  simp only [place_le_iff v split, List.mem_append, List.mem_singleton]
  constructor
  case mp =>
    rintro ⟨hc, hx⟩
    have mem : c ∈ f.children script := by
      rw [split]
      rcases hc with hc | rfl <;> simp [*]
    exact ⟨mem, (v.mem_postorder (v.has_child mem).ne_none).mp hx, hc⟩
  case mpr =>
    rintro ⟨mem, hx, hc⟩
    exact ⟨hc, (v.mem_postorder (v.has_child mem).ne_none).mpr hx⟩

end Forest

/- Where things are moved -/

-- What defines something, or might: a class or a function.
def IsDefining (f : Forest) (r : Ref) : Prop :=
  f.kind? r = some .classDefinition ∨ f.kind? r = some .function

-- What was below the child `c` of the script is below the child `d` now. The child is the same unless
-- a merge has moved it.
structure Located (f : Forest) (script : Ref) (log : Log) (w : Workspace) (c d y : Ref) : Prop where
  child   : d ∈ f.children script
  kept    : d ∉ log.statements
  inside  : w.forest.Contains (log.image d) (log.image y)
  forward : f.place script d ≤ f.place script c
  stays   : d = c ∨ ∃ m member, .merge m member ∈ log ∧ f.Contains m.value y

-- A change leaves the child where it is, unless it is a merge of the child.
theorem Located.append {tail : List Change} (l : Located f script log w c d y)
    (kept : d ∉ Log.statements (log ++ tail))
    (inside : w'.forest.Contains (Log.image (log ++ tail) d) (Log.image (log ++ tail) y)) :
    Located f script (log ++ tail) w' c d y := by
  refine ⟨l.child, kept, inside, l.forward, l.stays.imp_right ?_⟩
  rintro ⟨m, member, merged, hm⟩
  exact ⟨m, member, List.mem_append_left _ merged, hm⟩

structure Forward (f : Forest) (script : Ref) (log : Log) (w : Workspace) : Prop where
  located : ∀ {c y}, c ∈ f.children script → f.Contains c y → IsDefining f y →
    ∃ d, Located f script log w c d y

namespace IsDefining

theorem of_isDefinition (h : f.isDefinition r) : IsDefining f r :=
  (isDefinition_iff.mp h).imp id And.left

theorem exists_kind (h : IsDefining f y) : ∃ k, f.kind? y = some k ∧ ¬k.isLeaf := by
  rcases h with h | h <;> exact ⟨_, h, by simp [Kind.isLeaf]⟩

theorem has (h : IsDefining f y) : f.Has y :=
  h.elim has_of_kind? has_of_kind?

theorem image (h : IsDefining f y) (p : Progress f done log w) : IsDefining w.forest (log.image y) := by
  rcases p.kind?_image h.has with e | ⟨-, e⟩
  · rwa [IsDefining, e]
  · exact .inl e

-- A statement has what it defines in the function that it assigns, if it is a path otherwise.
theorem contains_value (h : IsDefining w.forest x) (site : f.Site w.forest m) (v : w.forest.Valid)
    (e : w.forest.Extends f) (hx : w.forest.Contains m.statement x) : w.forest.Contains m.value x := by
  rcases site.cases_below v hx with rfl | rfl | hx | hx
  · rcases h with h | h <;> cases h.symm.trans site.view.statement
  · rcases h with h | h <;> cases h.symm.trans site.view.assignment.right
  · obtain ⟨k, hk, path⟩ := site.path.kind?_eq ((site.target x).mp hx)
    have hk := (e.kind? (has_of_kind? hk)).trans hk
    rcases h with h | h <;> cases h.symm.trans hk <;> cases path
  · exact hx

end IsDefining

namespace Forward

theorem start (f : Forest) (script : Ref) : Forward f script [] { forest := f } where
  located hc hy _ := ⟨_, hc, nofun, hy, le_rfl, .inl rfl⟩

theorem congr (h : Forward f script log w) (e : w'.forest = w.forest) : Forward f script log w' where
  located hc hy k := by
    obtain ⟨d, l⟩ := h.located hc hy k
    exact ⟨d, l.child, l.kept, e ▸ l.inside, l.forward, l.stays⟩

theorem promote {q : Promoted} {doc : Nat} (h : Forward f script log w) (p : Progress f done log w)
    (v : f.Valid) (hr : q.function ∉ done) (parts : Parts f w.forest q)
    (e : w.forest.Promotes g doc q) (hg : w'.forest = g) :
    Forward f script (log ++ [.promotion q.function q.cls]) w' := by
  subst hg
  refine ⟨fun {c y} hc hy ky => ?_⟩
  obtain ⟨d, l⟩ := h.located hc hy ky
  obtain ⟨k, hk, leaf⟩ := ky.exists_kind
  have name : ¬w.forest.Contains q.name (log.image y) := fun hn => by
    have e := (parts.contains_name p.valid).mp hn
    exact parts.name_ne hk leaf (p.eq_of_image e parts.has_name)
  have image {x : Ref} : Log.image (log ++ [.promotion q.function q.cls]) x = _ :=
    p.image_promoted (has_of_kind? parts.function) (p.cls?_none hr)
  have inside := e.contains_image p.valid (p.has_image (v.has_child l.child)) l.inside (.inr name)
  refine ⟨d, l.append (by simpa [Log.statements, Change.statement?] using l.kept) ?_⟩
  rwa [image, image]

theorem merge {r member : Ref} {className name : String} {isStatic : Bool}
    (h : Forward f script log w) (p : Progress f done log w) (pending : Pending f script done log w)
    (v : f.Valid) (hs : f.kind? script = some .script)
    (order : f.postorder script = done ++ m.statement :: rest)
    (onScript : m.statement ∈ f.children script) (site : f.Site w.forest m)
    (isMethod : m.isMethod w.forest) (hr : f.firstOf? done className = some r)
    (hm : w.forest.kind? (w.forest.members (log.image r)) = some .classMembers)
    (out : ¬w.forest.Contains m.statement (w.forest.members (log.image r)))
    (e : w.forest.Merges g m (w.forest.members (log.image r)) member name isStatic)
    (hg : w'.forest = g) : Forward f script (log ++ [.merge m member]) w' := by
  subst hg
  refine ⟨fun {c y} hc hy ky => ?_⟩
  have has := has_of_kind? hs
  have value := site.contains_value p.valid
  have fresh := (turn_of_postorder v has order).fresh
  have statement : log.image m.statement = m.statement := Log.image_of_none (p.cls?_none fresh)
  have kept {d : Ref} (hd : d ∉ log.statements) (ne : d ≠ m.statement) :
      d ∉ Log.statements (log ++ [.merge m member]) := by
    simp_all [Log.statements, Change.statement?]
  by_cases hin : w.forest.Contains m.statement (log.image y)
  case neg =>
    obtain ⟨d, l⟩ := h.located hc hy ky
    have ne : d ≠ m.statement := by
      rintro rfl
      exact hin (statement ▸ l.inside)
    refine ⟨d, l.append (kept l.kept ne) ?_⟩
    rw [Log.image_merge]
    exact (e.contains_outside p.valid value (p.has_image ky.has) hin).mpr l.inside
  case pos =>
    obtain ⟨view, function, kept'⟩ := p.isView_original v (v.has_child onScript) (p.not_merged fresh)
      site.view isMethod
    have inValue := (ky.image p).contains_value site p.valid p.ext hin
    have below := view.contains_value v (has_of_kind? function).ne_none
    obtain ⟨k, hk, leaf⟩ := ky.exists_kind
    have original := (pending.contains onScript fresh below kept' function rfl hk leaf).mp inValue
    obtain rfl := v.child_unique hc onScript hy (below.trans original)
    -- The class of the member is in a statement that has been visited, or in this one.
    obtain ⟨visited, hdef⟩ := mem_definitions.mp (mem_of_firstOf? hr).left
    have defining := IsDefining.of_isDefinition hdef
    rw [← before_eq v has order, mem_before_iff v has onScript] at visited
    obtain ⟨-, c', hc', hr', forward⟩ := visited
    obtain ⟨d, l⟩ := h.located hc' hr' defining
    have list := l.inside.trans (p.valid.contains_child (members_mem (has_of_kind? hm).ne_none))
    have apart : ¬w.forest.Contains m.statement (log.image d) := fun hd => out (hd.trans list)
    have ne : d ≠ m.statement := by
      rintro rfl
      exact apart (by rw [statement]; exact .refl)
    refine ⟨d, l.child, kept l.kept ne, ?_, l.forward.trans forward,
      .inr ⟨m, member, by simp, original⟩⟩
    rw [Log.image_merge]
    have hd := p.has_image (v.has_child l.child)
    exact (e.contains_inside p.valid value hd.ne_none apart hd out inValue).mpr list

theorem step (h : Forward f script log w) (p : Progress f done log w) (d : Defined f done log w)
    (reached : Reached f script log w) (pending : Pending f script done log w) (v : f.Valid)
    (s : f.Shaped script) (hs : f.kind? script = some .script)
    (order : f.postorder script = done ++ r :: rest) (visited : w.Visited options r change w') :
    Forward f script (log ++ change.toList) w' := by
  have t := turn_of_postorder v (has_of_kind? hs) order
  have ⟨hc, hd⟩ := contains_of_postorder v (has_of_kind? hs) order
  rcases visited.change_cases with rfl | ⟨cls, rfl⟩ | ⟨m, member, rfl, rfl⟩
  case inl => simpa using h.congr visited.forest_eq
  case inr.inl =>
    obtain ⟨-, doc, q, rfl, rfl, kind, -, promotes⟩ := visited.of_promotion
    have parts := p.parts v (s.formed.below hc) t.fresh (p.kind?_eq t.has kind) promotes
    exact h.promote p v t.fresh parts promotes rfl
  case inr.inr =>
    obtain ⟨-, view, onScript, isMethod, cls, className, name, joins, kind, merges⟩ :=
      visited.of_merge
    have site := joins_site p v (s.formed.below hc) t.has t.fresh view isMethod joins
    obtain ⟨⟨r, hr, rfl⟩, -, out⟩ := reached.joined p d hd site joins kind
    have onScript := p.onScript_original v t.has t.fresh onScript
    have direct := s.mem_children_script v hs hc (by simp [p.kind?_eq t.has view.statement]) onScript
    exact h.merge p pending v hs order direct site isMethod hr kind out merges rfl

end Forward

theorem Run.forward (run : Run options f done log w) (v : f.Valid) (s : f.Shaped script)
    (hs : f.kind? script = some .script) (h : f.postorder script = done ++ rest) :
    Forward f script log w := by
  have has := has_of_kind? hs
  refine run.invariant (motive := fun _ log w => Forward f script log w) v has h (.start f script)
    fun {done log w r rest change w'} order run h visited => ?_
  exact Forward.step h (run.progress v has order) (run.defined v has order) (run.reached v s.formed hs order)
    (run.pending v s hs order) v s hs order visited

end ClassLift
