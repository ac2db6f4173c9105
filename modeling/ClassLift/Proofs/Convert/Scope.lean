import ClassLift.Proofs.Convert.Merging
import ClassLift.Proofs.Convert.Spared

/-!
Functions around classes. A registry has one space of names for a whole script, and what is known there
may be a class in the body of a function. Whether a class is in a function is the same at any time of a
run, although classes are made and moved.
-/

namespace ClassLift

namespace Forest

-- A node is local if there is a function around it.
def IsLocal (f : Forest) (r : Ref) : Prop :=
  ∃ x, f.kind? x = some .function ∧ x ≠ r ∧ f.Contains x r

-- The functions around a class are around a statement, too.
def InScope (f : Forest) (cls statement : Ref) : Prop :=
  ∀ x, f.kind? x = some .function → f.Contains x cls → f.Contains x statement

variable {f g : Forest} {a x c : Ref} {doc : Nat} {q : Promoted}

theorem isLocal_congr (v : f.Valid) (e : g.Extends f) (hx : f.Has x)
    (h : ∀ a, g.Contains a x ↔ f.Contains a x) : g.IsLocal x ↔ f.IsLocal x := by
  refine exists_congr fun a => ?_
  by_cases hn : a = none
  case pos => simp [hn, kind?]
  case neg =>
    by_cases hc : f.Contains a x
    case pos => rw [h a, e.kind? (v.has_above hc hx hn)]
    case neg => simp [h a, hc]

namespace Promotes

-- The function in the new member is around the parts that it has got.
theorem contains_moved (p : f.Promotes g doc q) (v : f.Valid) (h : f.Contains q.function x)
    (hx : x ≠ q.function) (hN : ¬f.Contains q.name x) : g.Contains q.moved x := by
  obtain ⟨_, _, -, -, n⟩ := p.newClass
  obtain ⟨c, hc, below⟩ := v.exists_child p.has_function.ne_none h hx
  have kept : c ∈ g.children q.moved := by
    rw [p.parts, List.mem_cons] at hc
    rcases hc with rfl | hc
    · exact absurd below hN
    · exact n.moved ▸ List.mem_cons_of_mem _ hc
  have same := p.contains_image v (v.has_child hc) below (.inr hN)
  rw [if_neg (p.ne_function v (p.parts ▸ hc)), if_neg hx] at same
  exact (p.valid.contains_child kept).trans same

-- What is below that function was below the original one.
theorem contains_function (p : f.Promotes g doc q) (v : f.Valid) (hx : f.Has x)
    (hF : x ≠ q.function) (h : g.Contains q.moved x) : f.Contains q.function x := by
  obtain ⟨_, _, -, -, n⟩ := p.newClass
  have ⟨has, new⟩ := n.new q.moved (by simp)
  induction v.rooted x using Rooted.downward
  case top => exact absurd rfl hx.ne_none
  case below x _ _ ih =>
    by_cases part : f.parent x = q.function
    case pos => exact part ▸ contains_parent f x
    case neg =>
      have above := h.parent_of_ne fun e => new (e ▸ hx)
      rw [p.parent_of_ne v hx hF part] at above
      exact (ih (v.has_parent (above.ne_none has.ne_none)) part above).child rfl

theorem kind_function (p : f.Promotes g doc q) (hk : g.kind? a = some .function) (ha : ¬f.Has a) :
    a = q.moved := by
  obtain ⟨_, _, -, -, n⟩ := p.newClass
  rcases n.only ha (has_of_kind? hk) with ha | s
  case inr => exact absurd hk (s.kind_ne (by simp))
  case inl =>
    simp only [List.mem_cons, List.not_mem_nil, or_false] at ha
    rcases ha with rfl | rfl | rfl | rfl
    · cases n.kinds.left.symm.trans hk
    · cases n.kinds.right.left.symm.trans hk
    · simp [kind?_eq_label?, n.label, constructorNode] at hk
    · rfl

-- A new class is as local as the function was, and what was in the function is in one again.
theorem isLocal_iff (p : f.Promotes g doc q) (v : f.Valid) (hF : f.kind? q.function = some .function)
    (leaf : f.children q.name = []) (hN : f.kind? q.name ≠ some .function) (hx : f.Has x)
    (name : x ≠ q.name) : g.IsLocal (if x = q.function then q.cls else x) ↔ f.IsLocal x := by
  have ⟨_, _, _, _, n⟩ := p.newClass
  have named {y : Ref} (hy : y ≠ q.name) : ¬f.Contains q.name y := fun h =>
    hy (eq_of_contains_leaf v (v.has_child (p.parts ▸ List.mem_cons_self ..)).ne_none leaf h)
  constructor
  case mp =>
    rintro ⟨a, ka, ne, ha⟩
    by_cases old : f.Has a
    case neg =>
      obtain rfl := p.kind_function ka old
      have hxF : x ≠ q.function := by
        rintro rfl
        rw [if_pos rfl] at ha ne
        exact ne (p.valid.antisymm p.new_cls.left.ne_none ha p.contains_member)
      rw [if_neg hxF] at ha
      exact ⟨q.function, hF, hxF.symm, p.contains_function v hx hxF ha⟩
    case pos =>
      have haF : a ≠ q.function := by
        rintro rfl
        have gone : g.children q.function = [] := by rw [p.old old, if_pos rfl]
        exact ne (eq_of_contains_leaf p.valid old.ne_none gone ha).symm
      have ka' := (p.ext.kind? old).symm.trans ka
      have aN : a ≠ q.name := fun e => hN (e ▸ ka')
      have before := ((p.contains_iff v old haF (named aN) hx).mp ha).left
      refine ⟨a, ka', ?_, before⟩
      rintro rfl
      exact ne (if_neg haF).symm
  case mpr =>
    rintro ⟨a, ka, ne, ha⟩
    by_cases haF : a = q.function
    case pos =>
      subst haF
      have hxF := ne.symm
      rw [if_neg hxF]
      have new := (n.new q.moved (by simp)).right
      exact ⟨q.moved, n.kinds.right.right, fun e => new (e ▸ hx), p.contains_moved v ha hxF (named name)⟩
    case neg =>
      have old := has_of_kind? ka
      have aN : a ≠ q.name := fun e => hN (e ▸ ka)
      refine ⟨a, (p.ext.kind? old).trans ka, ?_,
        (p.contains_iff v old haF (named aN) hx).mpr ⟨ha, .inr (named name)⟩⟩
      split
      case isTrue => exact fun e => p.new_cls.right (e ▸ old)
      case isFalse => exact ne

end Promotes

namespace Merges

variable {m : MemberAssignment} {members member : Ref} {name : String} {isStatic : Bool}
variable (e : f.Merges g m members member name isStatic) (v : f.Valid)
variable (hS : f.Contains m.statement m.value)
include e v hS

-- A merge takes the function along with what is in it, and moves no other class.
theorem isLocal_iff (hV : f.kind? m.value = some .function) (hx : f.Has x)
    (h : f.Contains m.statement x → f.Contains m.value x ∧ x ≠ m.value) :
    g.IsLocal x ↔ f.IsLocal x := by
  by_cases hc : f.Contains m.statement x
  case neg => exact isLocal_congr v e.ext hx fun a => e.contains_outside v hS hx hc
  case pos =>
    obtain ⟨hx', ne⟩ := h hc
    have has := has_of_kind? hV
    exact iff_of_true
      ⟨m.value, (e.ext.kind? has).trans hV, ne.symm, e.contains_value v hS hx'⟩
      ⟨m.value, hV, ne.symm, hx'⟩

end Merges

end Forest

open Forest Workspace

variable {options : Options} {f g : Forest} {script root s r x cls : Ref} {done rest rs ss : List Ref}
variable {log : Log} {w w' : Workspace} {m : MemberAssignment} {member : Ref} {c : Change}
variable {change : Option Change} {summary : Summary} {className : String}

/- One script -/

-- A node that is or may become a class, as far as its visit is to come or has made it one.
structure IsClass (f : Forest) (done : List Ref) (log : Log) (r : Ref) : Prop where
  kind : f.kind? r = some .classDefinition ∨ f.kind? r = some .function
  made : f.kind? r = some .function → r ∈ done → (log.cls? r).isSome

theorem Progress.kind_of_isClass (p : Progress f done log w) (h : IsClass f done log r) :
    w.forest.kind? (log.image r) = some .classDefinition ∨
      w.forest.kind? (log.image r) = some .function := by
  rcases h.kind with hk | hk
  · rw [p.image_eq_self hk (by simp)]
    exact .inl ((p.ext.kind? (has_of_kind? hk)).trans hk)
  · exact (p.kind?_image (has_of_kind? hk)).symm.imp And.right (·.trans hk)

-- A run moves classes only together with the function that they are in.
theorem Run.isLocal_iff (run : Run options f done log w) (v : f.Valid) (formed : f.Formed script)
    (hs : f.kind? script = some .script) (order : f.postorder script = done ++ rest)
    (hr : IsClass f done log r) : w.forest.IsLocal (log.image r) ↔ f.IsLocal r := by
  refine run.invariant (motive := fun done log w => ∀ {r}, IsClass f done log r →
    (w.forest.IsLocal (log.image r) ↔ f.IsLocal r)) v (has_of_kind? hs) order (fun _ => .rfl) ?_ hr
  intro done log w x rest change w' order run ih visited r hr
  have p := run.progress v (has_of_kind? hs) order
  have t := turn_of_postorder v (has_of_kind? hs) order
  obtain ⟨hc, hd⟩ := contains_of_postorder v (has_of_kind? hs) order
  have hf : f.Has r := hr.kind.elim has_of_kind? has_of_kind?
  rcases visited.change_cases with rfl | ⟨cls, rfl⟩ | ⟨m, member, rfl, rfl⟩
  case inl =>
    rw [Option.toList_none, List.append_nil] at hr ⊢
    rw [visited.forest_eq]
    exact ih ⟨hr.kind, fun hk hm => hr.made hk (by simp [hm])⟩
  case inr.inl =>
    obtain ⟨-, doc, q, rfl, rfl, kind, -, promotes⟩ := visited.of_promotion
    have parts := p.parts v (formed.below hc) t.fresh (p.kind?_eq t.has kind) promotes
    have before : IsClass f done log r := by
      refine ⟨hr.kind, fun hk hm => ?_⟩
      have hr := hr.made hk (by simp [hm])
      have ne : q.function ≠ r := fun e => t.fresh (e ▸ hm)
      simpa [Log.cls?_concat, Change.cls?, ne] using hr
    have ka := p.kind_of_isClass before
    have name : w.forest.kind? q.name = some .identifier ∨ w.forest.kind? q.name = some .empty :=
      p.ext.kind? parts.has_name ▸ parts.name
    have ne : log.image r ≠ q.name := fun e => by
      rcases ka with ka | ka <;> rw [e] at ka <;> simp [ka] at name
    have notName : w.forest.kind? q.name ≠ some .function := fun hk => by simp [hk] at name
    show w'.forest.IsLocal (Log.image (log ++ [.promotion q.function q.cls]) r) ↔ _
    rw [p.image_promoted t.has (p.cls?_none t.fresh),
      promotes.isLocal_iff p.valid kind parts.empty notName (p.has_image hf) ne]
    exact ih before
  case inr.inr =>
    obtain ⟨-, view, -, isMethod, cls, className, name, joins, kind, merges⟩ := visited.of_merge
    obtain ⟨original, value, kept⟩ := p.isView_original v t.has (p.not_merged t.fresh) view isMethod
    have site := joins_site p v (formed.below hc) t.has t.fresh view isMethod joins
    have before : IsClass f done log r := by
      refine ⟨hr.kind, fun hk hm => ?_⟩
      simpa [Log.cls?_concat, Change.cls?] using hr.made hk (by simp [hm])
    have ka := p.kind_of_isClass before
    show w'.forest.IsLocal (Log.image (log ++ [.merge m member]) r) ↔ _
    rw [Log.image_merge, merges.isLocal_iff p.valid (site.contains_value p.valid) (isKind_iff.mp isMethod)
      (p.has_image hf) fun inside => ⟨?inside, ?other⟩]
    case other =>
      intro e
      obtain rfl := p.eq_of_image e (has_of_kind? value)
      have visited := p.below (t.children _ original.assignment_mem) <|
        original.value_mem (has_of_kind? value).ne_none
      simpa [kept] using before.made value visited
    case inside =>
      rcases site.cases_below p.valid inside with e | e | h | h
      · rcases ka with ka | ka <;> cases (e ▸ ka).symm.trans view.statement
      · rcases ka with ka | ka <;> cases (e ▸ ka).symm.trans view.assignment.right
      · obtain ⟨k, hk, part⟩ := site.path.kind?_eq ((site.target _).mp h)
        have hk := (p.ext.kind? (has_of_kind? hk)).trans hk
        rcases ka with ka | ka <;> cases ka.symm.trans hk <;> cases part
      · exact h
    exact ih before

-- Where no visit has been above a node, the same functions are around it.
theorem Progress.isLocal_iff (p : Progress f done log w) (v : f.Valid) (hr : f.Has r)
    (fresh : ∀ a, f.Contains a r → a ∉ done) : w.forest.IsLocal r ↔ f.IsLocal r := by
  refine isLocal_congr v p.ext hr fun a => contains_congr fun x hx _ => ?_
  by_cases hn : x = none
  case pos => rw [hn, parent_none, parent_none]
  case neg => exact p.parent_eq v (v.has_above hx hr hn) (fresh x hx)

/- The changes, each with the workspace that it is made in -/

namespace Workspace

def steps (options : Options) : List Ref → Workspace → List (Workspace × Change)
  | [], _ => []
  | r :: rs, w =>
    match w.visit options r with
    | (.ok change, w') => change.toList.map (w, ·) ++ steps options rs w'
    | (.error _, _) => []

-- The class that is known by the name in the target of a statement.
def receiver? (w : Workspace) (m : MemberAssignment) : Option Ref :=
  match m.className? w.forest with
  | .ok (some className) => w.registry.lookup? className
  | _ => none

theorem map_steps : (steps options rs w).map (·.2) = (visitAll options rs w).1 := by
  induction rs generalizing w
  case nil => rfl
  case cons r rs ih =>
    rw [steps, visitAll]
    rcases w.visit options r with ⟨⟨e⟩ | ⟨change⟩, w'⟩
    case error => rfl
    case ok =>
      rw [List.map_append, ih, List.map_map]
      exact congrArg (· ++ _) (List.map_id _)

theorem mem_steps {u : Workspace} (h : (u, c) ∈ steps options rs w) :
    ∃ before r after log w', rs = before ++ r :: after ∧
      visitAll options before w = (log, .ok (), u) ∧ u.visit options r = (.ok (some c), w') := by
  induction rs generalizing w
  case nil => cases h
  case cons r rs ih =>
    rw [steps] at h
    rcases hv : w.visit options r with ⟨⟨e⟩ | ⟨change⟩, w'⟩ <;> rw [hv] at h
    case error => cases h
    case ok =>
      rcases List.mem_append.mp h with h | h
      case inl =>
        obtain ⟨c', hc, e⟩ := List.mem_map.mp h
        obtain ⟨rfl, rfl⟩ := Prod.mk.inj e
        obtain rfl := Option.mem_toList.mp hc
        exact ⟨[], r, rs, [], w', rfl, rfl, hv⟩
      case inr =>
        obtain ⟨before, x, after, log, w₁, rfl, hb, hx⟩ := ih h
        exact ⟨r :: before, x, after, _, w₁, rfl, by rw [visitAll_cons_ok hv, hb], hx⟩

end Workspace

-- The steps of all scripts, each script in the forest that the one before it has left.
def stepsOf (options : Options) : List Ref → Forest → List (Workspace × Change)
  | [], _ => []
  | s :: ss, f =>
    Workspace.steps options (f.postorder s) { forest := f } ++
      stepsOf options ss (f.convertScript options s).2

def Forest.allSteps (f : Forest) (options : Options) (root : Ref) : List (Workspace × Change) :=
  stepsOf options (f.scripts root) f

theorem Forest.inScope_iff {statement : Ref} (hk : f.kind? cls = some .classDefinition)
    (top : ∀ x, f.kind? x = some .function → ¬f.Contains x statement) :
    f.InScope cls statement ↔ ¬f.IsLocal cls := by
  constructor
  case mp =>
    rintro h ⟨x, kx, -, hx⟩
    exact top x kx (h x kx hx)
  case mpr =>
    refine fun h x kx hx => absurd ⟨x, kx, ?_, hx⟩ h
    rintro rfl
    cases hk.symm.trans kx

theorem Defined.isClass (d : Defined f done log w) (first : f.firstOf? done className = some r) :
    IsClass f done log r where
  kind      :=
    have definition := (mem_definitions.mp (mem_of_firstOf? first).left).right
    (isDefinition_iff.mp definition).imp id And.left
  made hk _ := Option.isSome_iff_exists.mpr (d.cls?_of_first first hk)

-- What a definition has become stays the same in the visits that follow.
theorem Finished.image_eq {u : Workspace} (h : Finished f options script u)
    (order : f.postorder script = done ++ rest)
    (before : visitAll options done { forest := f } = (log, .ok (), w))
    (hr : IsClass f done log r) (hd : r ∈ done) :
    (f.changes options script).image r = log.image r := by
  cases hc : log.cls? r
  case some cls =>
    have whole : f.changes options script = log ++ (visitAll options rest w).1 := by
      rw [changes, order, visitAll_append_ok before]
    rw [Log.image_of_some hc, whole, Log.image, Log.cls?_append, hc, Option.some_or, Option.getD_some]
  case none =>
    have hk := hr.kind.resolve_right fun hk => by simpa [hc] using hr.made hk hd
    rw [h.progress.image_eq_self hk (by simp), Log.image_of_none hc]

-- No function is around a statement at the top of a script that has none around it.
theorem Run.inScope_iff (run : Run options f done log w) (v : f.Valid) (s : f.Formed script)
    (hs : f.kind? script = some .script) (order : f.postorder script = done ++ m.statement :: rest)
    (view : m.IsView w.forest) (direct : m.statement ∈ f.children script) (hr : IsClass f done log r)
    (kind : w.forest.kind? (log.image r) = some .classDefinition) (top : ¬f.IsLocal script) :
    w.forest.InScope (log.image r) m.statement ↔ ¬f.IsLocal r := by
  have has := has_of_kind? hs
  have p := run.progress v has order
  have t := turn_of_postorder v has order
  have ⟨_, hd⟩ := contains_of_postorder v has order
  have fresh : script ∉ done := fun hm => t.fresh <| p.below hm direct
  have above (a : Ref) (ha : f.Contains a script) : a ∉ done := fun hm =>
    fresh (v.antisymm has.ne_none ha (hd a hm) ▸ hm)
  have top : ¬w.forest.IsLocal script := (p.isLocal_iff v has above).not.mpr top
  rw [Forest.inScope_iff kind, run.isLocal_iff v s hs order hr]
  intro x kx hx
  have hx := hx.parent_of_ne fun e => by cases (e ▸ kx).symm.trans view.statement
  rw [p.parent_eq v t.has t.fresh, v.parent_eq direct] at hx
  refine top ⟨x, kx, ?_, hx⟩
  rintro rfl
  cases kx.symm.trans ((p.ext.kind? has).trans hs)

-- What is known of the workspace `w` in which `m` is merged, in the run that ends in `u`: the class is
-- that of the definition `r`, which is the first one of its name before the statement.
structure MergedAt (f : Forest) (options : Options) (script : Ref) (u w : Workspace)
    (m : MemberAssignment) (member : Ref) (className : String) (r cls : Ref) : Prop where
  view     : m.IsView f
  direct   : m.statement ∈ f.children script
  ofClass  : m.className? f = .ok (some className)
  first    : f.firstOf? (f.before script m.statement) className = some r
  image    : (f.changes options script).image r = cls
  receiver : w.receiver? m = some cls
  kind     : w.forest.kind? cls = some .classDefinition
  home     : u.forest.parent (u.forest.parent member) = cls ∧
    u.forest.Contains script (u.forest.parent member)
  inside   : f.Contains script r
  inScope  : ¬f.IsLocal script → (w.forest.InScope cls m.statement ↔ ¬f.IsLocal r)

theorem Finished.mergedAt {u : Workspace} (h : Finished f options script u) (v : f.Valid)
    (s : f.Formed script) (alone : ∀ x, f.Contains script x → f.kind? x = some .script → x = script)
    (hm : (w, .merge m member) ∈ steps options (f.postorder script) { forest := f }) :
    ∃ className r cls, MergedAt f options script u w m member className r cls := by
  have hs := has_of_kind? h.kind
  have merged : .merge m member ∈ f.changes options script := by
    rw [changes, ← map_steps]
    exact List.mem_map.mpr ⟨_, hm, rfl⟩
  obtain ⟨done, r, rest, log, w', order, before, visit⟩ := mem_steps hm
  have run : Run options f done log w := Run.start.visitAll before
  have p := run.progress v hs order
  have t := turn_of_postorder v hs order
  obtain ⟨hc, hd⟩ := contains_of_postorder v hs order
  have reached := run.reached v s h.kind order
  have d := run.defined v hs order
  obtain ⟨rfl, view, -, isMethod, cls, className, name, joins, kind, merges⟩ :=
    (visited_of_ok p.valid visit).of_merge
  have site := joins_site p v (s.below hc) t.has t.fresh view isMethod joins
  obtain ⟨⟨r, first, rfl⟩, -, -⟩ := reached.joined p d hd site joins kind
  obtain ⟨kind, _⟩ := reached.registered p d hd first
  have original := (h.progress.merged merged).view
  have onScript := (h.progress.merged merged).onScript
  have direct : m.statement ∈ f.children script := by
    have above := hc.parent_of_ne fun e => by cases (e ▸ original.statement).symm.trans h.kind
    exact alone _ above onScript ▸ v.mem_parent (has_of_kind? onScript).ne_none
  have ofClass := (p.className?_eq v original.target.right).symm.trans joins.ofClass
  obtain ⟨visited, _⟩ := mem_definitions.mp (mem_of_firstOf? first).left
  have image := h.image_eq order before (d.isClass first) visited
  obtain ⟨r', className', ofClass', first', -, home, inside⟩ := h.home v merged
  cases ofClass.symm.trans ofClass'
  have whole : f.firstOf? (f.postorder script) className = some r :=
    order ▸ firstOf?_append_of_some first
  cases first'.symm.trans whole
  refine ⟨className, r, _, original, direct, ofClass, ?first, image, ?receiver, kind,
    ⟨home.trans image, inside⟩, hd r visited,
    run.inScope_iff v s h.kind order view direct (d.isClass first) kind⟩
  case first => rw [before_eq v hs order, first]
  case receiver => simp only [receiver?, joins.ofClass, joins.registered]

/- Scripts one after the other -/

theorem Passes.map_steps (h : Passes options ss f log summary g) :
    (stepsOf options ss f).map (·.2) = log := by
  induction h
  case nil => rfl
  case cons run _ ih =>
    rw [stepsOf, List.map_append, Workspace.map_steps, convertScript, run, ih, changes]

-- A change is made in the turn of one of the scripts, and then its nodes are as local as they were.
theorem Passes.pass_of_step (h : Passes options ss f log summary g)
    {step : Workspace × Change} (hm : step ∈ stepsOf options ss f) :
    ∃ s ∈ ss, ∃ e u, Pass options f g log s e u ∧
      step ∈ steps options (e.postorder s) { forest := e } ∧
      ∀ x, f.Contains s x → (e.IsLocal x ↔ f.IsLocal x) := by
  induction h
  case nil => cases hm
  case cons s ss f g w log summary valid formed apart run rest ih =>
    rw [stepsOf, convertScript, run] at hm
    rcases List.mem_append.mp hm with hm | hm
    case inl => exact ⟨s, by simp, f, w, rest.first valid formed apart run, hm, fun _ _ => .rfl⟩
    case inr =>
      obtain ⟨t, ht, e, u, p, hm, same⟩ := ih hm
      obtain ⟨has, a⟩ := apart t ht
      refine ⟨t, by simp [ht], e, u, p.later valid formed run has a, hm, fun x hx => ?_⟩
      obtain ⟨hs, visits⟩ := run_of_ok valid run
      have hs := has_of_kind? hs
      have order : f.postorder s = f.postorder s ++ [] := by simp
      rw [same x ((spares_of_run valid has a run).contains.mpr hx)]
      refine (visits.progress valid hs order).isLocal_iff valid (hx.has has) fun y hy hm => ?_
      exact a x (((valid.mem_postorder hs.ne_none).mp hm).trans hy) hx

theorem not_isLocal_of_script (shaped : f.isShaped) (hs : f.kind? s = some .script) :
    ¬f.IsLocal s := by
  have none {x : Ref} (hk : f.kind? x = some .function) : ¬f.Contains x none := fun h => by
    rw [h.eq_none] at hk
    cases hk
  rintro ⟨x, kx, ne, hx⟩
  have hx := hx.parent_of_ne ne.symm
  rcases parent_script_of_fits (fits_of_isShaped shaped s) hs with top | root
  · exact none kx (top ▸ hx)
  · have hx := hx.parent_of_ne fun e => by cases (e ▸ kx).symm.trans root
    exact none kx (parent_root_of_fits (fits_of_isShaped shaped _) root ▸ hx)

-- Methods at the top of a script join the first class of their name, and that may be the class of a
-- function. All functions around the class are around the statement exactly if there were none around
-- the definition of the class.
theorem scope_kept_iff (h : f.check = .ok ()) (shaped : f.isShaped)
    (ok : f.convert options root = (.ok summary, g)) :
    (f.allSteps options root).map (·.2) = f.allChanges options root ∧
    ∀ w m member, (w, .merge m member) ∈ f.allSteps options root →
      ∃ script ∈ f.scripts root, ∃ className r cls,
        m.statement ∈ f.children script ∧ m.className? f = .ok (some className) ∧
        f.firstOf? (f.before script m.statement) className = some r ∧
        (f.allChanges options root).image r = cls ∧ w.receiver? m = some cls ∧
        w.forest.kind? cls = some .classDefinition ∧ g.parent (g.parent member) = cls ∧
        (w.forest.InScope cls m.statement ↔ ¬f.IsLocal r) := by
  have v := valid_of_check h
  have passes := passes_of_ok v shaped ok
  refine ⟨passes.map_steps, fun w m member hm => ?_⟩
  obtain ⟨script, mem, e, u, p, hm, same⟩ := passes.pass_of_step hm
  have hs := kind?_of_mem_scripts mem
  have top {x : Ref} : e.Contains script x ↔ f.Contains script x := p.before.contains
  have alone (x : Ref) (hx : e.Contains script x) (hk : e.kind? x = some .script) : x = script :=
    (shaped_of_isShaped shaped script).eq_of_script hs (p.before.kind? (top.mp hx) ▸ hk) (top.mp hx)
  obtain ⟨className, r, cls, a⟩ := p.finished.mergedAt p.valid p.formed alone hm
  have statement := p.valid.contains_child a.direct
  have assignment := statement.trans (p.valid.contains_child a.view.assignment_mem)
  have target := assignment.trans (p.valid.contains_child a.view.target_mem)
  have access := p.before.kind? (top.mp target) ▸ a.view.target.right
  have order := p.before.postorder_eq v .refl
  have before : e.before script m.statement = f.before script m.statement := by
    rw [Forest.before, order, Forest.before]
  have inside (x : Ref) (hx : x ∈ f.before script m.statement) : f.Contains script x :=
    (v.mem_postorder (has_of_kind? hs).ne_none).mp (List.takeWhile_subset _ hx)
  have below : u.forest.Contains script member := a.home.right.child rfl
  refine ⟨script, mem, className, r, cls, ?direct, ?ofClass, ?first, ?image, a.receiver, a.kind, ?home,
    ?inScope⟩
  case direct => exact p.before.agree.children script .refl ▸ a.direct
  case ofClass => exact (p.before.target access).left ▸ a.ofClass
  case first => rw [← p.before.firstOf?_eq inside, ← before, a.first]
  case image => exact (p.image_eq (top.mp a.inside)).trans a.image
  case home => rw [p.after.parent below, p.after.parent a.home.right, a.home.left]
  case inScope =>
    rw [← same r (top.mp a.inside)]
    exact a.inScope <| (same script .refl).not.mpr (not_isLocal_of_script shaped hs)

-- The function `A` of the sample is at the top of the script, and so is the class that the method joins.
theorem scope_kept_iff_sample :
    sample.isShaped ∧ ∃ w m member cls, (w, .merge m member) ∈ sample.allSteps {} (some 0) ∧
      w.receiver? m = some cls ∧ w.forest.InScope cls m.statement := by
  have shaped : sample.isShaped := rfl
  obtain ⟨-, steps⟩ := scope_kept_iff sample_check shaped sample_convert
  have merges : (sample.allSteps {} (some 0)).any (·.2.statement?.isSome) := rfl
  obtain ⟨⟨w, c⟩, hm, hc⟩ := List.any_eq_true.mp merges
  cases c
  case promotion => cases hc
  case merge m member =>
    obtain ⟨script, mem, className, r, cls, -, -, first, -, receiver, -, -, inScope⟩ := steps w m member hm
    have scripts : sample.scripts (some 0) = [some 0] := scripts_of_script rfl
    obtain rfl : script = some 0 := by simpa [scripts] using mem
    have only : sample.definitions (sample.postorder (some 0)) = [some 1] := rfl
    have definition := mem_definitions.mp (mem_of_firstOf? first).left
    have hr : r ∈ sample.definitions (sample.postorder (some 0)) :=
      mem_definitions.mpr ⟨List.takeWhile_subset _ definition.left, definition.right⟩
    obtain rfl : r = some 1 := by simpa [only] using hr
    refine ⟨shaped, w, m, member, cls, hm, receiver, inScope.mpr ?_⟩
    rintro ⟨x, kx, ne, hx⟩
    refine not_isLocal_of_script shaped (s := some 0) rfl ⟨x, kx, ?_, hx.parent_of_ne ne.symm⟩
    rintro rfl
    cases kx

-- A class `A` in the body of a function, and a function that is assigned to `A.f` at the top of the script.
def hidden : Forest where
  nodes := #[
    { kind := .script, data := some 0, children := [some 1, some 9] },
    { kind := .function, parent := some 0, children := [some 2, some 3, some 4] },
    { kind := .identifier, data := some 0, parent := some 1 },
    { kind := .parameterList, parent := some 1 },
    { kind := .block, parent := some 1, children := [some 5] },
    { kind := .classDefinition, parent := some 4, children := [some 6, some 7, some 8] },
    { kind := .identifier, data := some 1, parent := some 5 },
    { kind := .empty, parent := some 5 },
    { kind := .classMembers, parent := some 5 },
    { kind := .expressionStatement, parent := some 0, children := [some 10] },
    { kind := .assignment, parent := some 9, children := [some 11, some 14] },
    { kind := .propertyAccess, parent := some 10, children := [some 12, some 13] },
    { kind := .identifier, data := some 1, parent := some 11 },
    { kind := .identifier, data := some 2, parent := some 11 },
    { kind := .function, parent := some 10, children := [some 15, some 16, some 17] },
    { kind := .empty, parent := some 14 },
    { kind := .parameterList, parent := some 14 },
    { kind := .block, parent := some 14 }]
  texts := #["outer", "A", "f"]
  files := #["a.js"]

theorem hidden_check : hidden.check = .ok () ∧ hidden.isShaped :=
  ⟨(check_eq_checkChains _).trans rfl, rfl⟩

theorem hidden_convert :
    let w := (hidden.foldScript {} (some 0)).2
    hidden.convert {} (some 0) = (.ok { findings := w.findings, stats := w.stats }, w.forest) :=
  convert_of_foldScript hidden_check.left rfl rfl

-- The statement joins the class in the function, which is not around the statement.
theorem joins_local_class :
    hidden.check = .ok () ∧ hidden.isShaped ∧
    (∃ summary g, hidden.convert {} (some 0) = (.ok summary, g)) ∧
    ∃ w m member, (w, .merge m member) ∈ hidden.allSteps {} (some 0) ∧ m.statement = some 9 ∧
      w.receiver? m = some (some 5) ∧ w.forest.kind? (some 5) = some .classDefinition ∧
      ¬w.forest.InScope (some 5) m.statement := by
  have steps : (hidden.allSteps {} (some 0)).any fun (w, c) =>
      match c with
      | .merge m _ => m.statement == some 9 && w.receiver? m == some (some 5) &&
          w.forest.isKind (some 5) .classDefinition && w.forest.isKind (some 1) .function &&
          w.forest.check.isOk && w.forest.isWithin (some 5) (some 1) && !w.forest.isWithin (some 9) (some 1)
      | .promotion .. => false := by
    decide +kernel
  obtain ⟨⟨w, c⟩, hm, hc⟩ := List.any_eq_true.mp steps
  cases c
  case promotion => cases hc
  case merge m member =>
    simp only [Bool.and_eq_true, beq_iff_eq, isKind_iff, Bool.not_eq_true'] at hc
    obtain ⟨⟨⟨⟨⟨⟨statement, receiver⟩, kind⟩, function⟩, checked⟩, inside⟩, outside⟩ := hc
    have v : w.forest.Valid := by
      refine valid_of_check ?_
      cases hw : w.forest.check
      case error => simp [hw, Except.isOk, Except.toBool] at checked
      case ok => rfl
    refine ⟨hidden_check.left, hidden_check.right, ⟨_, _, hidden_convert⟩, w, m, member, hm, statement,
      receiver, kind, fun h => ?_⟩
    have around := h (some 1) function ((v.isWithin_iff (by simp)).mp inside)
    rw [statement, ← v.isWithin_iff (by simp), outside] at around
    cases around

end ClassLift
