import ClassLift.Proofs.Convert.Members
import ClassLift.Proofs.Convert.Outcome
import ClassLift.Proofs.Convert.Preservation

/-!
What a conversion leaves alone, also when it fails. Nodes keep all but their edges, and the edges only
change below the scripts that are converted, at the places of promotions and merges.
-/

namespace ClassLift

open Workspace Forest

variable {options : Options} {f g e : Forest} {script root r x c cls : Ref} {done rest : List Ref}
variable {rs : List Ref} {log log' : Log} {w w' : Workspace} {m : MemberAssignment} {member : Ref}
variable {change : Option Change}

/- Places of changes -/

-- Why the children of a node are not what they were.
inductive Rewired (f g : Forest) (log : Log) (r : Ref) : Prop
  | promoted {cls : Ref} (promoted : .promotion r cls ∈ log) (kind : f.kind? r = some .function)
  | above {function cls : Ref} (promoted : .promotion function cls ∈ log)
    (kind : f.kind? function = some .function) (parent : f.parent function = r)
  | script {m : MemberAssignment} {member : Ref} (merged : .merge m member ∈ log)
    (kind : f.kind? r = some .script) (statement : m.statement ∈ f.children r)
  | assignment {m : MemberAssignment} {member : Ref} (merged : .merge m member ∈ log)
    (kind : f.kind? r = some .assignment) (parent : f.parent r = m.statement)
  | members {m : MemberAssignment} {member cls : Ref} (merged : .merge m member ∈ log)
    (kind : f.kind? cls = some .classDefinition) (list : f.members cls = r) (new : ¬f.Has member)
    (home : g.parent member = r)

theorem Rewired.mono (h : Rewired f g log r) (sub : log ⊆ log')
    (home : ∀ {m member}, .merge m member ∈ log → ¬f.Has member → g.parent member = r →
      e.parent member = r) : Rewired f e log' r := by
  cases h
  case promoted promoted kind => exact .promoted (sub promoted) kind
  case above promoted kind parent => exact .above (sub promoted) kind parent
  case script merged kind statement => exact .script (sub merged) kind statement
  case assignment merged kind parent => exact .assignment (sub merged) kind parent
  case members merged kind list new inside =>
    exact .members (sub merged) kind list new (home merged new inside)

/- One script -/

-- The lists of members of the classes that are new are new.
theorem Run.new_last (run : Run options f done log w) (v : f.Valid) (hs : f.Has script)
    (order : f.postorder script = done ++ rest) (hm : .promotion r cls ∈ log) :
    ¬f.Has (w.forest.last cls) := by
  refine run.invariant (motive := fun _ log w => ∀ {r cls}, .promotion r cls ∈ log →
    ¬f.Has (w.forest.last cls)) v hs order nofun ?_ hm
  intro done log w x rest change w' order run h visited r cls hm
  have p := run.progress v hs order
  have t := turn_of_postorder v hs order
  rcases List.mem_append.mp hm with hm | hm
  case inl =>
    have stays := Stays.of_visited p v t.has t.fresh visited
    have p' := p.step v t.has t.fresh t.children visited
    have old := p.promoted hm
    rw [last, stays.children_of_kind p' old.new old.cls (by simp), ← last]
    exact h hm
  case inr =>
    obtain rfl := Option.mem_toList.mp hm
    obtain ⟨rfl, doc, q, rfl, rfl, -, -, promotes⟩ := visited.of_promotion
    obtain ⟨n, data, -, -, newClass⟩ := promotes.newClass
    have last : w'.forest.last q.cls = q.members := by simp [last, newClass.cls]
    rw [last]
    exact fun hf => (newClass.new q.members (by simp)).right (p.ext.has hf)

-- An original list gets members only as the list of an original class.
theorem Run.class_of_home (run : Run options f done log w) (v : f.Valid) (hs : f.Has script)
    (order : f.postorder script = done ++ rest) (hm : .merge m member ∈ log)
    (hf : f.Has (w.forest.parent member)) :
    ∃ cls, f.kind? cls = some .classDefinition ∧ f.members cls = w.forest.parent member := by
  refine run.invariant (motive := fun _ log w => ∀ {m member}, .merge m member ∈ log →
    f.Has (w.forest.parent member) →
    ∃ cls, f.kind? cls = some .classDefinition ∧ f.members cls = w.forest.parent member)
    v hs order nofun ?_ hm hf
  intro done log w x rest change w' order run h visited m member hm hf
  have p := run.progress v hs order
  have t := turn_of_postorder v hs order
  rcases List.mem_append.mp hm with hm | hm
  case inl =>
    have stays := Stays.of_visited p v t.has t.fresh visited
    have same := stays.parent (Log.mem_members.mpr ⟨m, hm⟩)
    rw [same] at hf ⊢
    exact h hm hf
  case inr =>
    obtain rfl := Option.mem_toList.mp hm
    obtain ⟨-, -, -, -, cls, className, name, joins, kind, merges⟩ := visited.of_merge
    rw [merges.parent_member p.valid] at hf ⊢
    have d := run.defined v hs order
    obtain ⟨y, hy, rfl⟩ := d.of_lookup? joins.registered
    obtain ⟨-, definition⟩ := mem_definitions.mp (mem_of_firstOf? hy).left
    have isClass : w.forest.isKind (log.image y) .classDefinition := by
      by_contra hn
      simp [members, hn, kind?] at kind
    rw [members, if_pos isClass] at hf ⊢
    cases hc : log.cls? y
    case some cls =>
      rw [Log.image_of_some hc] at hf
      exact absurd hf (run.new_last v hs order (Log.promotion_mem hc))
    case none =>
      rw [Log.image_of_none hc] at isClass hf ⊢
      have hy : f.Has y := by
        rcases isDefinition_iff.mp definition with hk | ⟨hk, -⟩ <;> exact has_of_kind? hk
      have hk := p.kind?_eq hy (isKind_iff.mp isClass)
      have image := p.last_image (p.children_of_kind v hk (by simp))
      rw [image] at hf ⊢
      exact ⟨y, hk, (members_of_kind hk).trans (p.eq_of_image rfl hf)⟩

theorem Run.rewired (run : Run options f done log w) (v : f.Valid) (hs : f.Has script)
    (order : f.postorder script = done ++ rest) (hr : f.Has r)
    (changed : w.forest.children r ≠ f.children r) : Rewired f w.forest log r := by
  have p := run.progress v hs order
  by_contra no
  refine changed ?_
  have kept : log.cls? r = none := Log.cls?_eq_none.mpr fun ⟨cls, hm⟩ =>
    no (.promoted hm (p.promoted hm).kind)
  have left : (f.children r).filter (· ∉ log.taken) = f.children r := by
    refine List.filter_eq_self.mpr fun c hc => decide_eq_true fun taken => no ?_
    have parent := v.parent_eq hc
    obtain ⟨m, member, hm, rfl | rfl⟩ := Log.mem_taken.mp taken
    · exact .script hm (parent ▸ (p.merged hm).onScript) hc
    · have merged := p.merged hm
      have e := (merged.parent_value v).symm.trans parent
      exact .assignment hm (e ▸ merged.view.assignment.right) (e ▸ merged.parent_assignment v)
  have same : (f.children r).map log.image = f.children r := by
    refine (List.map_congr_left fun c hc => Log.image_of_none ?_).trans (List.map_id _)
    exact Log.cls?_eq_none.mpr fun ⟨cls, hm⟩ =>
      no (.above hm (p.promoted hm).kind (v.parent_eq hc))
  have none : log.members.filter (w.forest.parent · = r) = [] := by
    refine List.filter_eq_nil_iff.mpr fun member hm home => no ?_
    obtain rfl := of_decide_eq_true home
    obtain ⟨m, hm⟩ := Log.mem_members.mp hm
    obtain ⟨cls, kind, list⟩ := run.class_of_home v hs order hm hr
    exact .members hm kind list (p.merged hm).new rfl
  rw [p.contents hr, Log.contents, kept, left, same, none]
  simp

theorem Ends.run {o : Outcome Unit} (h : Ends options f script o) :
    ∃ done rest, f.postorder script = done ++ rest ∧
      Run options f done (f.changes options script) o.2 := by
  cases h
  case finished run => exact ⟨_, [], (List.append_nil _).symm, run⟩
  case failed order run _ => exact ⟨_, _, order, run⟩

/- Scripts one after the other -/

-- The scripts that are converted, each with its changes. The first that fails is the last.
def attempts (options : Options) : List Ref → Forest → List (Ref × Log)
  | [], _ => []
  | r :: rs, f =>
    if f.isKind r .script then
      (r, f.changes options r) ::
        match f.convertScript options r with
        | (.ok _, g) => attempts options rs g
        | (.error _, _) => []
    else
      attempts options rs f

namespace Forest

def attempts (f : Forest) (options : Options) (root : Ref) : List (Ref × Log) :=
  if f.isKind root .script then [(root, f.changes options root)]
  else if f.isKind root .root then ClassLift.attempts options (f.children root) f
  else []

def attempted (f : Forest) (options : Options) (root : Ref) : List Ref :=
  (f.attempts options root).map (·.1)

-- What has been done when the conversion ends, with or without an error.
def changesMade (f : Forest) (options : Options) (root : Ref) : Log :=
  (f.attempts options root).flatMap (·.2)

end Forest

-- `g` is what the conversions of some scripts make of `f`.
structure Framed (f g : Forest) (scripts : List Ref) (log : Log) : Prop where
  valid   : g.Valid
  ext     : g.Extends f
  apart   : ∀ {x}, f.Has x → (∀ s ∈ scripts, ¬f.Contains s x) →
    g.children x = f.children x ∧ g.parent x = f.parent x
  rewired : ∀ {x}, f.Has x → g.children x ≠ f.children x → Rewired f g log x

namespace Framed

theorem refl (v : f.Valid) : Framed f f [] [] where
  valid         := v
  ext           := .refl f
  apart _ _     := ⟨rfl, rfl⟩
  rewired _ hn  := absurd rfl hn

theorem of_script (v : f.Valid) (hs : f.kind? script = some .script) :
    Framed f (f.runScript options script).2.forest [script] (f.changes options script) := by
  have has := has_of_kind? hs
  have ends : Ends options f script (f.runScript options script) := runScript_ends v hs
  obtain ⟨done, rest, order, run⟩ := ends.run
  have p := run.progress v has order
  have inside (x : Ref) (hx : x ∈ done) : f.Contains script x :=
    (v.mem_postorder has.ne_none).mp (by simp [order, hx])
  refine ⟨p.valid, p.ext, fun {x} hx out => ?_, fun hx => run.rewired v has order hx⟩
  exact p.apart v hs inside hx (out script (by simp))

-- A script that is apart from the first one is the same after its conversion.
theorem contains_iff {s t : Ref} (h : Framed f e [s] log) (v : f.Valid) (ht : f.Has t)
    (a : Apart f s t) : e.Contains t x ↔ f.Contains t x := by
  refine (h.valid.contains_iff_of_children v ht.ne_none fun y hy => ?_).symm
  refine (h.apart (hy.has ht) fun s' hs hc => ?_).left.symm
  rw [List.mem_singleton.mp hs] at hc
  exact a y hc hy

theorem cons {s : Ref} {ss : List Ref} (h : Framed f e [s] log) (h' : Framed e g ss log')
    (v : f.Valid) (hss : ∀ t ∈ ss, f.Has t ∧ Apart f s t) : Framed f g (s :: ss) (log ++ log') := by
  have same {t x : Ref} (ht : t ∈ ss) : e.Contains t x ↔ f.Contains t x :=
    h.contains_iff v (hss t ht).left (hss t ht).right
  have first {x : Ref} (hx : f.Has x) (out : ¬f.Contains s x) :
      e.children x = f.children x ∧ e.parent x = f.parent x :=
    h.apart hx fun s' hs => List.mem_singleton.mp hs ▸ out
  refine ⟨h'.valid, h'.ext.trans h.ext, fun {x} hx out => ?apart, fun {x} hx changed => ?rewired⟩
  case apart =>
    have before := first hx (out s (by simp))
    have after := h'.apart (h.ext.has hx) fun t ht => (same ht).not.mpr (out t (by simp [ht]))
    exact ⟨after.left.trans before.left, after.right.trans before.right⟩
  case rewired =>
    by_cases early : e.children x = f.children x
    case neg =>
      -- The later scripts leave the members where the first one has put them.
      have inside : f.Contains s x := by
        by_contra out
        exact early (first hx out).left
      refine (h.rewired hx early).mono (List.subset_append_left ..) fun {m member} _ new home => ?_
      have has : e.Has member := has_of_parent_ne_none (home ▸ hx.ne_none)
      rw [← home]
      refine (h'.apart has fun t ht hc => ?_).right
      have ne : member ≠ t := fun e => new (e ▸ (hss t ht).left)
      exact (hss t ht).right x inside ((same ht).mp (home ▸ hc.parent_of_ne ne))
    case pos =>
      rw [← early] at changed
      obtain ⟨t, ht, hc⟩ : ∃ t ∈ ss, e.Contains t x := by
        by_contra out
        push Not at out
        exact changed (h'.apart (h.ext.has hx) out).left
      have out : ¬f.Contains s x := fun hs => (hss t ht).right x hs ((same ht).mp hc)
      have parent := (first hx out).right
      have kind {y : Ref} (hy : f.Has y) : e.kind? y = f.kind? y := h.ext.kind? hy
      have sub := List.subset_append_right log log'
      cases h'.rewired (h.ext.has hx) changed
      case promoted promoted hk => exact .promoted (sub promoted) ((kind hx).symm.trans hk)
      case above function cls promoted hk above =>
        have mem := h.valid.mem_children.mpr ⟨above, hx.ne_none⟩
        rw [early] at mem
        exact .above (sub promoted) ((kind (v.has_child mem)).symm.trans hk) (v.parent_eq mem)
      case script merged hk statement => exact .script (sub merged) ((kind hx).symm.trans hk) (early ▸ statement)
      case assignment merged hk above => exact .assignment (sub merged) ((kind hx).symm.trans hk) (parent ▸ above)
      case members m member cls merged hk list new home =>
        have mem : x ∈ e.children cls := list ▸ members_mem (list ▸ hx.ne_none)
        have above : f.parent x = cls := parent ▸ h.valid.parent_eq mem
        have has : f.Has cls := above ▸ v.has_parent (above ▸ (has_of_kind? hk).ne_none)
        have kept := (first has fun hs => out (above ▸ hs).up).left
        have hk := (kind has).symm.trans hk
        refine .members (sub merged) hk ?_ (fun hm => new (h.ext.has hm)) home
        rw [← list, members_of_kind hk, members_of_kind ((kind has).trans hk), last, last, kept]

end Framed

theorem framed_of_scripts (total : Summary) (v : f.Valid) (b : Siblings f root rs) :
    Framed f (convertScripts options rs total f).2 ((attempts options rs f).map (·.1))
        ((attempts options rs f).flatMap (·.2)) ∧
      (attempts options rs f).map (·.1) <+: rs.filter (f.isKind · .script) := by
  induction rs generalizing f total
  case nil => exact ⟨.refl v, List.prefix_refl _⟩
  case cons r rs ih =>
    rw [convertScripts, attempts, List.filter_cons]
    by_cases hk : f.isKind r .script
    case neg =>
      simp only [hk]
      exact ih total v b.tail
    case pos =>
      have here : Framed f (f.runScript options r).2.forest [r] (f.changes options r) :=
        .of_script v (isKind_iff.mp hk)
      simp only [hk, if_true, convertScript]
      rcases hc : f.runScript options r with ⟨⟨e⟩ | ⟨⟨⟩⟩, w⟩ <;> rw [hc] at here <;>
        simp only [Except.map, List.map_cons, List.flatMap_cons, List.map_nil, List.flatMap_nil]
      case error => exact ⟨by simpa using here, by simp⟩
      case ok =>
        have after : Siblings w.forest root rs :=
          b.rest v fun x hx hn => (here.apart hx fun s hs => List.mem_singleton.mp hs ▸ hn).right
        obtain ⟨framed, before⟩ := ih (total.add { findings := w.findings, stats := w.stats }) here.valid after
        rw [b.tail.filter_script here.ext] at before
        refine ⟨here.cons framed v fun t ht => ?_, (List.prefix_cons_inj r).mpr before⟩
        have ht := (List.mem_filter.mp (before.subset ht)).left
        exact ⟨b.tail.has ht, b.apart v ht⟩

theorem framed_of_convert (v : f.Valid) (options : Options) (root : Ref) :
    Framed f (f.convert options root).2 (f.attempted options root) (f.changesMade options root) ∧
      f.attempted options root <+: f.scripts root := by
  unfold convert attempted changesMade Forest.attempts scripts
  by_cases hk : f.isKind root .script
  case pos =>
    have here : Framed f (f.runScript options root).2.forest [root] (f.changes options root) :=
      .of_script v (isKind_iff.mp hk)
    simpa [hk, convertScript] using here
  case neg =>
    simp only [hk]
    by_cases hr : f.isKind root .root
    case pos =>
      have hr' := isKind_iff.mp hr
      rw [expectKind_eq_ok (u := ()) |>.mpr hr']
      simpa [hr] using framed_of_scripts {} v (.of_children v (has_of_kind? hr'))
    case neg =>
      cases he : f.expectKind root .root
      case ok => exact absurd (isKind_iff.mpr (expectKind_eq_ok.mp he)) hr
      case error => simpa [hr] using Framed.refl v

-- What is below no script is what it was.
theorem Framed.node?_eq {scripts : List Ref} (h : Framed f g scripts log) (hr : f.Has r)
    (out : ∀ s ∈ scripts, ¬f.Contains s r) : g.node? r = f.node? r :=
  have ⟨children, parent⟩ := h.apart hr out
  Forest.node?_eq (h.ext.label hr) parent children

-- Only edges change, at the places of promotions and merges in the scripts that are converted.
theorem frame_kept (h : f.check = .ok ()) (options : Options) (root : Ref) :
    let g := (f.convert options root).2
    (∀ r n, f.node? r = some n →
      ∃ parent children, g.node? r = some { n with parent := parent, children := children }) ∧
    g.docs = f.docs ∧ g.files = f.files ∧ (∃ more, g.texts = f.texts ++ more) ∧
    f.attempted options root <+: f.scripts root ∧
    (∀ r, f.Has r → (∀ s ∈ f.attempted options root, ¬f.Contains s r) → g.node? r = f.node? r) ∧
    ∀ r, f.Has r → g.children r ≠ f.children r → Rewired f g (f.changesMade options root) r := by
  have v := valid_of_check h
  obtain ⟨framed, before⟩ := framed_of_convert v options root
  refine ⟨fun r n hn => ?label, framed.ext.docs, framed.ext.files, framed.ext.texts, before,
    fun r => framed.node?_eq, fun r => framed.rewired⟩
  exact ⟨_, _, exists_node? (framed.ext.label (by simp [Has, hn])) hn⟩

-- When the second function fails, the first one has become a class, and the script has that below it.
theorem frame_kept_halted :
    let g := (halted.foldScript {} (some 0)).2.forest
    halted.check = .ok () ∧ halted.convert {} (some 0) = (.error (.malformedFunction (some 5)), g) ∧
      g.children (some 0) ≠ halted.children (some 0) ∧
      Rewired halted g (halted.changesMade {} (some 0)) (some 0) := by
  have changed : (halted.foldScript {} (some 0)).2.forest.children (some 0) ≠
      halted.children (some 0) := by
    decide
  have ⟨_, _, _, _, _, _, rewired⟩ := frame_kept halted_check {} (some 0)
  rw [halted_convert] at rewired
  exact ⟨halted_check, halted_convert, changed, rewired (some 0) rfl changed⟩

end ClassLift
