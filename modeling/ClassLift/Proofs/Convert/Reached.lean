import ClassLift.Proofs.Convert.Definitions
import ClassLift.Proofs.Convert.Placement
import ClassLift.Proofs.Convert.Target

/-!
What hangs below a script after the visits that have been made: all that did before, except for what
the changes have taken away for good.
-/

namespace ClassLift

-- The kinds of the nodes that are lost as parts of others.
def Kind.isDropped : Kind → Bool
  | identifier | empty | thisKeyword | propertyAccess | assignment => true
  | _ => false

-- A promotion takes away the function and a name that is none, a merge the statement without the
-- function that is assigned.
def Change.Loses (f : Forest) : Change → Ref → Prop
  | promotion function _, x => x = function ∨ x = f.first function ∧ ¬f.IsName x
  | merge m _, x => x = m.statement ∨ x = m.assignment ∨ f.Contains m.target x

def Lost (f : Forest) (log : Log) (x : Ref) : Prop :=
  ∃ c ∈ log, c.Loses f x

open Forest

variable {f g : Forest} {script x : Ref} {done : List Ref} {log : Log} {w w' : Workspace}
variable {m : MemberAssignment} {c : Change} {k : Kind}

theorem lost_concat : Lost f (log ++ [c]) x ↔ Lost f log x ∨ c.Loses f x := by
  simp [Lost, or_and_right, exists_or]

/- The parts of a function -/

-- What a function that is about to be promoted is separated from: its original parts. Nothing is
-- below its name.
structure Parts (f g : Forest) (q : Promoted) : Prop where
  function   : f.kind? q.function = some .function
  parts      : f.children q.function = [q.name, q.parameters, q.body]
  name       : f.kind? q.name = some .identifier ∨ f.kind? q.name = some .empty
  parameters : f.kind? q.parameters = some .parameterList
  body       : f.kind? q.body = some .block
  empty      : g.children q.name = []

namespace Parts

variable {q : Promoted} (h : Parts f g q)
include h

theorem first_eq : f.first q.function = q.name := by
  simp [first, child, h.parts]

theorem has_name : f.Has q.name :=
  h.name.elim has_of_kind? has_of_kind?

theorem name_ne (hx : f.kind? x = some k) (hk : ¬k.isLeaf) : x ≠ q.name := by
  rintro rfl
  rcases h.name with hn | hn <;>
  · cases hx.symm.trans hn
    exact hk rfl

theorem contains_name (v : g.Valid) : g.Contains q.name x ↔ x = q.name :=
  ⟨eq_of_contains_leaf v h.has_name.ne_none h.empty, fun h => h ▸ .refl⟩

end Parts

theorem Progress.parts {q : Promoted} {doc : Nat} (p : Progress f done log w) (v : f.Valid)
    (s : f.Formed q.function) (hr : q.function ∉ done) (hk : f.kind? q.function = some .function)
    (e : w.forest.Promotes g doc q) : Parts f w.forest q := by
  obtain ⟨name, parameters, body, hp, hn, kp, kb⟩ := children_function (s _ .refl) hk
  obtain ⟨k, kn, leaf, hne⟩ : ∃ k, f.kind? name = some k ∧ k.isLeaf ∧
      k ∉ [Kind.function, .classMembers, .script, .assignment] := by
    rcases hn with hn | hn <;> exact ⟨_, hn, rfl, by simp⟩
  have parts := p.children_pending v (has_of_kind? hk) hr (by simp [hk])
  rw [e.parts, hp] at parts
  simp only [List.map_cons, List.map_nil, p.image_eq_self kn (List.ne_of_not_mem_cons hne),
    p.image_eq_self kp (by simp), p.image_eq_self kb (by simp), List.cons.injEq, and_true] at parts
  obtain ⟨rfl, rfl, rfl⟩ := parts
  have sub : f.Contains q.function q.name := v.contains_child (by simp [hp])
  refine ⟨hk, hp, hn, kp, kb, ?_⟩
  rw [p.children_of_kind v kn hne, children_leaf (s _ sub) kn leaf, List.map_nil]

-- What is below an original node after a promotion.
theorem Progress.contains_promoted {q : Promoted} {doc : Nat} {a : Ref} (p : Progress f done log w)
    (v : f.Valid) (h : Parts f w.forest q) (e : w.forest.Promotes g doc q)
    (ha : f.kind? a = some k) (hk : ¬k.isLeaf) (hF : a ≠ q.function) (hx : w.forest.Has x) :
    g.Contains a (if x = q.function then q.cls else x) ↔
      w.forest.Contains a x ∧ (f.IsName q.name ∨ x ≠ q.name) := by
  have place := e.contains_iff p.valid (p.ext.has (has_of_kind? ha)) hF
    ((h.contains_name p.valid).not.mpr (h.name_ne ha hk)) hx
  have isName : w.forest.IsName q.name ↔ f.IsName q.name := by
    unfold IsName
    rw [p.ext.identifierText? v h.has_name]
  rwa [isName, h.contains_name p.valid] at place

structure Reached (f : Forest) (script : Ref) (log : Log) (w : Workspace) : Prop where
  old  : ∀ {x}, f.Has x → (w.forest.Contains script x ↔ f.Contains script x ∧ ¬Lost f log x)
  new  : ∀ {r cls}, .promotion r cls ∈ log → w.forest.Contains script cls
  name : ∀ {r cls}, .promotion r cls ∈ log →
    f.kind? (f.first r) = some .identifier ∨ f.kind? (f.first r) = some .empty
  path : ∀ {m member}, .merge m member ∈ log → f.IsPath m.target

namespace Reached

theorem start (f : Forest) (script : Ref) : Reached f script [] { forest := f } where
  old _  := by simp [Lost]
  new h  := nomatch h
  name h := nomatch h
  path h := nomatch h

-- Only nodes of few kinds are lost: functions that are classes now, statements that have been taken
-- apart, and parts of these.
theorem kind_of_lost (h : Reached f script log w) (p : Progress f done log w) (hx : Lost f log x) :
    (f.kind? x = some .function ∧ ∃ cls, .promotion x cls ∈ log) ∨
    (f.kind? x = some .expressionStatement ∧ ∃ m member, .merge m member ∈ log ∧ x = m.statement) ∨
    ∃ k, f.kind? x = some k ∧ k.isDropped := by
  obtain ⟨c, hc, hx⟩ := hx
  cases c
  case promotion r cls =>
    rcases hx with rfl | ⟨rfl, -⟩
    · exact .inl ⟨(p.promoted hc).kind, cls, hc⟩
    · rcases h.name hc with hk | hk <;> exact .inr (.inr ⟨_, hk, rfl⟩)
  case merge m member =>
    have view := (p.merged hc).view
    rcases hx with rfl | rfl | hx
    · exact .inr (.inl ⟨view.statement, m, member, hc, rfl⟩)
    · exact .inr (.inr ⟨_, view.assignment.right, rfl⟩)
    · obtain ⟨k, hk, hp⟩ := (h.path hc).kind?_eq hx
      exact .inr (.inr ⟨k, hk, by cases k <;> simp_all [Kind.isPathPart, Kind.isDropped]⟩)

theorem not_lost_of_kind (h : Reached f script log w) (p : Progress f done log w)
    (hk : f.kind? x = some k) (hd : ¬k.isDropped)
    (hn : k ≠ .function ∧ k ≠ .expressionStatement) : ¬Lost f log x := by
  intro hx
  rcases h.kind_of_lost p hx with ⟨hk', -⟩ | ⟨hk', -⟩ | ⟨k', hk', hd'⟩ <;> cases hk.symm.trans hk'
  · exact hn.left rfl
  · exact hn.right rfl
  · exact hd hd'

-- Functions and statements are only lost when they are visited.
theorem not_lost_pending (h : Reached f script log w) (p : Progress f done log w) (hx : x ∉ done)
    (hk : f.kind? x = some .function ∨ f.kind? x = some .expressionStatement) : ¬Lost f log x := by
  intro hl
  rcases h.kind_of_lost p hl with ⟨-, _, hm⟩ | ⟨-, _, _, hm, rfl⟩ | ⟨k, hk', hd⟩
  · exact hx (p.promoted hm).visited
  · exact hx (p.merged hm).visited
  · rcases hk with hk | hk <;> cases hk.symm.trans hk' <;> cases hd

-- A class that is known is one, and it has not been lost.
theorem registered (h : Reached f script log w) (p : Progress f done log w) (d : Defined f done log w)
    (hd : ∀ r ∈ done, f.Contains script r) {name : String} {r : Ref}
    (hr : f.firstOf? done name = some r) :
    w.forest.kind? (log.image r) = some .classDefinition ∧
      w.forest.Contains script (log.image r) := by
  have ⟨visited, hdef⟩ := mem_definitions.mp (mem_of_firstOf? hr).left
  rcases isDefinition_iff.mp hdef with hk | ⟨hk, -⟩
  case inl =>
    have hf := has_of_kind? hk
    rw [p.image_eq_self hk (by simp)]
    refine ⟨(p.ext.kind? hf).trans hk, (h.old hf).mpr ⟨hd r visited, ?_⟩⟩
    exact h.not_lost_of_kind p hk (by simp [Kind.isDropped]) (by simp)
  case inr =>
    obtain ⟨cls, hc⟩ := d.cls?_of_first hr hk
    rw [Log.image_of_some hc]
    exact ⟨(p.promoted (Log.promotion_mem hc)).cls, h.new (Log.promotion_mem hc)⟩

/- Steps -/

theorem congr (h : Reached f script log w) (e : w'.forest = w.forest) : Reached f script log w' where
  old  := e ▸ h.old
  new  := e ▸ h.new
  name := h.name
  path := h.path

theorem promote {q : Promoted} {doc : Nat} (h : Reached f script log w) (p : Progress f done log w)
    (v : f.Valid) (hs : f.kind? script = some .script) (hr : q.function ∉ done)
    (hc : f.Contains script q.function) (parts : Parts f w.forest q)
    (e : w.forest.Promotes g doc q) (hg : w'.forest = g) :
    Reached f script (log ++ [.promotion q.function q.cls]) w' := by
  subst hg
  have hF := has_of_kind? parts.function
  have hSF : script ≠ q.function := by
    rintro rfl
    cases hs.symm.trans parts.function
  have place {x : Ref} (hx : w.forest.Has x) :=
    p.contains_promoted v parts e hs (by simp [Kind.isLeaf]) hSF hx
  refine ⟨fun {x} hx => ?old, fun {r cls} hm => ?new, fun {r cls} hm => ?name, fun hm => ?path⟩
  case old =>
    rw [lost_concat, Change.Loses, parts.first_eq]
    by_cases hxF : x = q.function
    case pos =>
      subst hxF
      have : ¬w'.forest.Contains script q.function := by
        rw [contains_iff_of_ne hSF.symm, e.parent_function p.valid]
        exact fun h => (has_of_kind? hs).ne_none h.eq_none
      simp [this]
    case neg =>
      have place := place (p.ext.has hx)
      rw [if_neg hxF] at place
      rw [place, h.old hx]
      by_cases hxN : x = q.name
      case pos =>
        have hNF : q.name ≠ q.function := hxN ▸ hxF
        simp [hxN, hNF, and_assoc]
      case neg => simp [hxF, hxN]
  case new =>
    rcases List.mem_append.mp hm with hm | hm
    case inl =>
      have old := p.promoted hm
      have hxF : cls ≠ q.function := fun e => old.new (e ▸ hF)
      have hxN : cls ≠ q.name := fun e => old.new (e ▸ parts.has_name)
      have place := place (has_of_kind? old.cls)
      rw [if_neg hxF] at place
      exact place.mpr ⟨h.new hm, .inr hxN⟩
    case inr =>
      cases List.mem_singleton.mp hm
      have place := place e.has_function
      rw [if_pos rfl] at place
      have reached := (h.old hF).mpr ⟨hc, h.not_lost_pending p hr (.inl parts.function)⟩
      exact place.mpr ⟨reached, .inr <| parts.name_ne parts.function (by simp [Kind.isLeaf])⟩
  case name =>
    rcases List.mem_append.mp hm with hm | hm
    case inl => exact h.name hm
    case inr =>
      cases List.mem_singleton.mp hm
      rw [parts.first_eq]
      exact parts.name
  case path => exact h.path (by simpa using hm)

theorem merge {members member : Ref} {name : String} {isStatic : Bool} (h : Reached f script log w)
    (p : Progress f done log w) (hs : f.kind? script = some .script) (site : f.Site w.forest m)
    (hf : f.Has m.statement) (hr : m.statement ∉ done) (hc : f.Contains script m.statement)
    (reach : w.forest.Contains script members) (out : ¬w.forest.Contains m.statement members)
    (e : w.forest.Merges g m members member name isStatic) (hg : w'.forest = g) :
    Reached f script (log ++ [.merge m member]) w' := by
  subst hg
  have hS := has_of_kind? hs
  have statement := p.kind?_eq hf site.view.statement
  have above : w.forest.Contains script m.statement :=
    (h.old hf).mpr ⟨hc, h.not_lost_pending p hr (.inr statement)⟩
  have hn : ¬w.forest.Contains m.statement script := fun hc => by
    cases p.valid.antisymm hS.ne_none hc above
    cases statement.symm.trans hs
  have below := site.contains_value p.valid
  have place {x : Ref} (hx : w.forest.Has x) : w'.forest.Contains script x ↔
      w.forest.Contains script x ∧ ¬w.forest.Contains m.statement x ∨ w.forest.Contains m.value x := by
    rw [e.contains_iff p.valid below (p.ext.has hS) hn out hx, and_iff_left reach]
  refine ⟨fun {x} hx => ?old, fun {r cls} hm => ?new, fun {r cls} hm => ?name, fun {m' member'} hm => ?path⟩
  case old =>
    rw [lost_concat, Change.Loses, place (p.ext.has hx), not_or, ← and_assoc, ← h.old hx, ← site.target]
    constructor
    · rintro (⟨hc, hn⟩ | hv)
      · refine ⟨hc, ?_⟩
        rintro (rfl | rfl | ht)
        · exact hn .refl
        · exact hn (site.contains_assignment p.valid)
        · exact hn ((site.contains_target p.valid).trans ht)
      · have ⟨hs, ha, ht⟩ := site.apart p.valid hv
        exact ⟨above.trans (below.trans hv), by simp [hs, ha, ht]⟩
    · rintro ⟨hc, hn⟩
      simp only [not_or] at hn
      by_cases hx : w.forest.Contains m.statement x
      case neg => exact .inl ⟨hc, hx⟩
      case pos =>
        rcases site.cases_below p.valid hx with hx | hx | hx | hx
        · exact absurd hx hn.left
        · exact absurd hx hn.right.left
        · exact absurd hx hn.right.right
        · exact .inr hx
  case new =>
    have hm : .promotion r cls ∈ log := by simpa using hm
    have hk := (p.promoted hm).cls
    refine (place (has_of_kind? hk)).mpr ?_
    by_cases hv : w.forest.Contains m.value cls
    case pos => exact .inr hv
    case neg => exact .inl ⟨h.new hm, site.not_contains_class p.valid p.ext hk hv⟩
  case name => exact h.name (by simpa using hm)
  case path =>
    rcases List.mem_append.mp hm with hm | hm
    case inl => exact h.path hm
    case inr =>
      cases List.mem_singleton.mp hm
      exact site.path

end Reached

/- Runs -/

section Run

variable {options : Options} {rest : List Ref} {change : Option Change} {r : Ref}

-- A statement that is merged, and the class that it joins.
theorem joins_site {cls : Ref} {className name : String} (p : Progress f done log w) (v : f.Valid)
    (s : f.Formed m.statement) (hf : f.Has m.statement) (hr : m.statement ∉ done)
    (view : m.IsView w.forest) (isMethod : m.isMethod w.forest)
    (j : m.Joins w options cls className name) : f.Site w.forest m := by
  have ⟨original, _, hu⟩ := p.isView_original v hf (p.not_merged hr) view isMethod
  exact p.site v s original view (p.not_merged hr) hu j.ofClass

-- The class that a statement joins hangs below the script, but not below the statement.
theorem Reached.joined {cls : Ref} {className name : String} (h : Reached f script log w)
    (p : Progress f done log w) (d : Defined f done log w) (hd : ∀ r ∈ done, f.Contains script r)
    (site : f.Site w.forest m) (j : m.Joins w options cls className name)
    (kind : w.forest.kind? (w.forest.members cls) = some .classMembers) :
    (∃ r, f.firstOf? done className = some r ∧ log.image r = cls) ∧
      w.forest.Contains script (w.forest.members cls) ∧
      ¬w.forest.Contains m.statement (w.forest.members cls) := by
  obtain ⟨r, hr, rfl⟩ := d.of_lookup? j.registered
  have ⟨hk, reach⟩ := h.registered p d hd hr
  have hm := members_mem (has_of_kind? kind).ne_none
  have value : m.value ∈ w.forest.children m.assignment := by simp [site.assignment]
  have apart := j.not_contains p.valid (p.valid.has_child value).ne_none
  exact ⟨⟨r, hr, rfl⟩, reach.trans (p.valid.contains_child hm),
    site.not_contains_members p.valid p.ext hk apart kind⟩

theorem Reached.step (h : Reached f script log w) (p : Progress f done log w)
    (d : Defined f done log w) (v : f.Valid) (s : f.Formed script) (hs : f.kind? script = some .script)
    (hd : ∀ r ∈ done, f.Contains script r) (hc : f.Contains script r) (hr : r ∉ done)
    (visited : w.Visited options r change w') : Reached f script (log ++ change.toList) w' := by
  have hf := hc.has (has_of_kind? hs)
  rcases visited.change_cases with rfl | ⟨cls, rfl⟩ | ⟨m, member, rfl, rfl⟩
  case inl => simpa using h.congr visited.forest_eq
  case inr.inl =>
    obtain ⟨-, doc, q, rfl, rfl, kind, -, promotes⟩ := visited.of_promotion
    have parts := p.parts v (s.below hc) hr (p.kind?_eq hf kind) promotes
    exact h.promote p v hs hr hc parts promotes rfl
  case inr.inr =>
    obtain ⟨-, view, -, isMethod, cls, className, name, joins, kind, merges⟩ := visited.of_merge
    have site := joins_site p v (s.below hc) hf hr view isMethod joins
    have ⟨_, reach, out⟩ := h.joined p d hd site joins kind
    exact h.merge p hs site hf hr hc reach out merges rfl

theorem Run.reached (run : Run options f done log w) (v : f.Valid) (s : f.Formed script)
    (hs : f.kind? script = some .script) (h : f.postorder script = done ++ rest) :
    Reached f script log w := by
  have has := has_of_kind? hs
  refine run.invariant (motive := fun _ log w => Reached f script log w) v has h
    (.start f script) fun {done log w r rest change w'} order run h visited => ?_
  have ⟨hc, hd⟩ := contains_of_postorder v has order
  have t := turn_of_postorder v has order
  exact h.step (run.progress v has order) (run.defined v has order) v s hs hd hc t.fresh visited

end Run

end ClassLift
