import ClassLift.Proofs.Convert.Reached
import ClassLift.Proofs.Convert.Traversal

/-!
Nothing of a script is lost in a conversion apart from what the changes replace. The scripts of a
root are converted one after the other, and none of them touches the others.
-/

namespace ClassLift

open Forest

variable {f g h : Forest} {s t x : Ref} {log log' : Log} {c : Change} {m : MemberAssignment}

/- The places of changes -/

def Change.Within (f : Forest) (s : Ref) : Change → Prop
  | promotion function _ => f.Contains s function
  | merge m _ => f.Contains s m.statement ∧ m.IsView f

theorem Change.Within.contains (w : c.Within f s) (v : f.Valid) (hx : f.Has x) (h : c.Loses f x) :
    f.Contains s x := by
  cases c
  case promotion function cls =>
    rcases h with rfl | ⟨rfl, -⟩
    · exact w
    · exact w.trans <| v.contains_child <| child_mem hx.ne_none
  case merge m member =>
    obtain ⟨w, view⟩ := w
    have assignment := w.trans <| v.contains_child view.assignment_mem
    rcases h with rfl | rfl | h
    · exact w
    · exact assignment
    · exact (assignment.trans <| v.contains_child view.target_mem).trans h

-- What the conversion of some scripts has done.
structure Converts (f g : Forest) (scripts : List Ref) (log : Log) : Prop where
  valid  : g.Valid
  ext    : g.Extends f
  kept   : ∀ s ∈ scripts, ∀ {x}, f.Has x → (g.Contains s x ↔ f.Contains s x ∧ ¬Lost f log x)
  kinds  : ∀ {x}, f.Has x → Lost f log x → (f.kind? x).any fun k =>
    k = .function || k = .expressionStatement || k.isDropped
  paths  : ∀ {m member}, .merge m member ∈ log → f.IsPath m.target
  within : ∀ c ∈ log, ∃ s ∈ scripts, c.Within f s
  apart  : ∀ {x}, f.Has x → (∀ s ∈ scripts, ¬f.Contains s x) →
    g.children x = f.children x ∧ g.parent x = f.parent x

theorem Converts.nil (v : f.Valid) : Converts f f [] [] where
  valid        := v
  ext          := .refl f
  kept _ hs    := nomatch hs
  kinds _ h    := by simp [Lost] at h
  paths h      := nomatch h
  within _ h   := nomatch h
  apart _ _    := ⟨rfl, rfl⟩

/- One script -/

section Script

variable {script : Ref} {options : Options} {done : List Ref} {w : Workspace}

-- A visit changes nothing that is not below the script.
theorem Progress.apart (p : Progress f done log w) (v : f.Valid) (hs : f.kind? script = some .script)
    (hd : ∀ r ∈ done, f.Contains script r) (hx : f.Has x) (hn : ¬f.Contains script x) :
    w.forest.children x = f.children x ∧ w.forest.parent x = f.parent x := by
  have fresh : x ∉ done := fun h => hn (hd x h)
  refine ⟨p.children_kept hx fresh fun c hc => ?_, p.parent_eq v hx fresh⟩
  by_cases e : c = script
  case pos =>
    refine ⟨fun h => ?_, p.cls?_none_of_kind (e ▸ hs) (by simp)⟩
    obtain ⟨m, member, hm, rfl | rfl⟩ := Log.mem_taken.mp h
    · cases (e ▸ hs).symm.trans (p.merged hm).view.statement
    · cases (e ▸ hs).symm.trans (p.merged hm).value
  case neg =>
    have fresh : c ∉ done := fun h => hn (v.parent_eq hc ▸ (hd c h).parent_of_ne e)
    exact ⟨p.not_taken fresh, p.cls?_none fresh⟩

theorem converts_script (v : f.Valid) (formed : f.Formed script)
    (ok : f.runScript options script = (.ok (), w)) :
    Converts f w.forest [script] (f.changes options script) := by
  obtain ⟨hs, run⟩ := run_of_ok v ok
  have has := has_of_kind? hs
  have order : f.postorder script = f.postorder script ++ [] := by simp
  have p := run.progress v has order
  have reached := run.reached v formed hs order
  have mem {r : Ref} (hr : r ∈ f.postorder script) : f.Contains script r :=
    (v.mem_postorder has.ne_none).mp hr
  refine ⟨p.valid, p.ext, ?kept, fun {x} hx hl => ?kinds, reached.path, fun c hc => ?within,
    fun hx hn => p.apart v hs (fun r => mem) hx (hn script (by simp))⟩
  case kept =>
    intro s hs x hx
    rw [List.mem_singleton.mp hs]
    exact reached.old hx
  case kinds =>
    rw [Option.any_eq_true]
    rcases reached.kind_of_lost p hl with ⟨hk, -⟩ | ⟨hk, -⟩ | ⟨k, hk, hd⟩
    · exact ⟨_, hk, rfl⟩
    · exact ⟨_, hk, rfl⟩
    · exact ⟨k, hk, by simp [hd]⟩
  case within =>
    refine ⟨script, by simp, ?_⟩
    cases c
    case promotion => exact mem (p.promoted hc).visited
    case merge => exact ⟨mem (p.merged hc).visited, (p.merged hc).view⟩

end Script

/- Scripts one after the other -/

-- A tree that has the same edges and labels in both forests.
structure Agree (f g : Forest) (t : Ref) : Prop where
  children : ∀ x, f.Contains t x → g.children x = f.children x
  contains : ∀ {a x}, a ≠ none → f.Contains t a → (g.Contains a x ↔ f.Contains a x)
  has      : f.Has t

namespace Agree

theorem of_children (v : f.Valid) (v' : g.Valid) (ht : f.Has t)
    (hc : ∀ x, f.Contains t x → g.children x = f.children x) : Agree f g t where
  children := hc
  contains ha h := (v'.contains_iff_of_children v ha fun y hy => (hc y (h.trans hy)).symm).symm
  has := ht

theorem child {i : Nat} (a : Agree f g t) (hx : f.Contains t x) : g.child x i = f.child x i := by
  rw [Forest.child, Forest.child, a.children x hx]

theorem docIndex? (e : g.Extends f) {r : Ref} (hr : r ≠ none → f.Has r) :
    g.docIndex? r = f.docIndex? r := by
  by_cases hn : r = none
  case pos => simp [hn, Forest.docIndex?]
  case neg => exact e.docIndex? (hr hn)

theorem isView (a : Agree f g t) (v : f.Valid) (e : g.Extends f) (hm : f.Contains t m.statement)
    (i : m.IsView g) : m.IsView f := by
  have hs := hm.has a.has
  have e₁ : m.assignment = f.first m.statement := i.assignment.left.trans (a.child hm)
  have hs' : f.kind? m.statement = some .expressionStatement := (e.kind? hs).symm.trans i.statement
  have ha : f.Has m.assignment := by
    rw [e₁]
    refine v.first_has fun hn => ?_
    exact (has_of_kind? i.assignment.right).ne_none (e₁.trans hn)
  have sub : f.Contains t m.assignment := by
    rw [e₁]
    refine hm.trans <| v.contains_child <| child_mem fun hn => ?_
    exact ha.ne_none (e₁.trans hn)
  have e₂ : m.target = f.first m.assignment := i.target.left.trans (a.child sub)
  have ht : f.Has m.target := by
    rw [e₂]
    refine v.first_has fun hn => ?_
    exact (has_of_kind? i.target.right).ne_none (e₂.trans hn)
  have e₃ : m.value = f.second m.assignment := i.value.trans (a.child sub)
  refine ⟨hs', ⟨e₁, (e.kind? ha).symm.trans i.assignment.right⟩,
    ⟨e₂, (e.kind? ht).symm.trans i.target.right⟩, e₃, ?_⟩
  have hv (hn : m.value ≠ none) : f.Has m.value := by
    rw [e₃] at hn ⊢
    exact v.child_has hn
  rw [i.doc, e.docIndex? hs, e.docIndex? ha, docIndex? e hv]

theorem within (a : Agree f g t) (v : f.Valid) (e : g.Extends f) (w : c.Within g t) :
    c.Within f t := by
  have top {x : Ref} : g.Contains t x ↔ f.Contains t x := a.contains a.has.ne_none .refl
  cases c
  case promotion => exact top.mp w
  case merge => exact ⟨top.mp w.left, a.isView v e (top.mp w.left) w.right⟩

theorem loses (a : Agree f g t) (v : f.Valid) (e : g.Extends f) (w : c.Within f t) (hx : f.Has x) :
    c.Loses g x ↔ c.Loses f x := by
  cases c
  case promotion function cls =>
    have isName : g.IsName x ↔ f.IsName x := by
      unfold IsName
      rw [e.identifierText? v hx]
    rw [Change.Loses, Change.Loses, first, first, a.child w, isName]
  case merge m member =>
    obtain ⟨w, view⟩ := w
    have sub := (w.trans <| v.contains_child view.assignment_mem).trans <| v.contains_child view.target_mem
    rw [Change.Loses, Change.Loses, a.contains (has_of_kind? view.target.right).ne_none sub]

theorem kinds (a : Agree f g t) (v : f.Valid) (e : g.Extends f) (hx : f.Contains t x) :
    (g.children x).map g.kind? = (f.children x).map f.kind? := by
  rw [a.children x hx]
  exact List.map_congr_left fun c hc => e.kind? (v.has_child hc)

theorem isFormed (a : Agree f g t) (v : f.Valid) (e : g.Extends f) (hx : f.Contains t x) :
    g.isFormed x = f.isFormed x := by
  rw [Forest.isFormed, Forest.isFormed, e.kind? (hx.has a.has), a.kinds v e hx]

theorem isGrammatical (a : Agree f g t) (v : f.Valid) (e : g.Extends f) (hx : f.Contains t x) :
    g.isGrammatical x = f.isGrammatical x := by
  rw [Forest.isGrammatical, Forest.isGrammatical, e.kind? (hx.has a.has), a.kinds v e hx]

theorem formed (a : Agree f g t) (v : f.Valid) (e : g.Extends f) (s : f.Formed t) : g.Formed t := by
  intro x hx
  rw [a.contains a.has.ne_none .refl] at hx
  exact a.isFormed v e hx ▸ s x hx

end Agree

-- Two trees are apart if they have no node in common.
def Apart (f : Forest) (s t : Ref) : Prop :=
  ∀ x, f.Contains s x → ¬f.Contains t x

theorem Apart.symm (a : Apart f s t) : Apart f t s := fun x ht hs =>
  a x hs ht

theorem Converts.agree (k : Converts f g [s] log) (v : f.Valid) (ht : f.Has t) (a : Apart f s t) :
    Agree f g t :=
  .of_children v k.valid ht fun x hx => (k.apart (hx.has ht) fun s' hs' hc => by
    rw [List.mem_singleton.mp hs'] at hc
    exact a x hc hx).left

theorem Converts.apart_after (k : Converts f g [s] log) (v : f.Valid) (ht : f.Has t)
    (a : Apart f s t) : Apart g s t := by
  intro x hsx htx
  rcases hsx.linear htx with hc | hc
  · exact a t ((k.kept s (by simp) ht).mp hc).left .refl
  · exact a s .refl <| ((k.agree v ht a).contains ht.ne_none .refl).mp hc

theorem Converts.cons {ss : List Ref} (k : Converts f g [s] log) (k' : Converts g h ss log')
    (v : f.Valid) (hs : f.Has s) (hss : ∀ t ∈ ss, f.Has t ∧ Apart f s t) :
    Converts f h (s :: ss) (log ++ log') := by
  have agree {t : Ref} (ht : t ∈ ss) : Agree f g t := k.agree v (hss t ht).left (hss t ht).right
  have top {t x : Ref} (ht : t ∈ ss) : g.Contains t x ↔ f.Contains t x :=
    (agree ht).contains (hss t ht).left.ne_none .refl
  have lost {x : Ref} (hx : f.Has x) : Lost g log' x ↔ Lost f log' x := by
    refine exists_congr fun c => and_congr_right fun hc => ?_
    obtain ⟨t, ht, w⟩ := k'.within c hc
    exact (agree ht).loses v k.ext ((agree ht).within v k.ext w) hx
  have split {x : Ref} : Lost f (log ++ log') x ↔ Lost f log x ∨ Lost f log' x := by
    simp [Lost, or_and_right, exists_or]
  -- What one script loses is not in another.
  have lost_in {x : Ref} (hx : f.Has x) (hl : Lost f log x) : f.Contains s x := by
    obtain ⟨c, hc, hl⟩ := hl
    obtain ⟨s', hs', w⟩ := k.within c hc
    exact List.mem_singleton.mp hs' ▸ w.contains v hx hl
  have lost_in' {x : Ref} (hx : f.Has x) (hl : Lost f log' x) : ∃ t ∈ ss, f.Contains t x := by
    obtain ⟨c, hc, hl⟩ := hl
    obtain ⟨t, ht, w⟩ := k'.within c hc
    exact ⟨t, ht, ((agree ht).within v k.ext w).contains v hx hl⟩
  refine ⟨k'.valid, k'.ext.trans k.ext, fun t ht {x} hx => ?kept, fun {x} hx hl => ?kinds,
    fun {m member} hm => ?paths, fun c hc => ?within, fun {x} hx hn => ?apart⟩
  case kept =>
    rcases List.mem_cons.mp ht with rfl | ht
    case inl =>
      -- The scripts that follow leave the tree of this one as it is.
      have same : Agree g h t := .of_children k.valid k'.valid (k.ext.has hs) fun y hy =>
        (k'.apart (hy.has (k.ext.has hs)) fun t' ht' hc =>
          k.apart_after v (hss t' ht').left (hss t' ht').right y hy hc).left
      rw [same.contains hs.ne_none .refl, k.kept t (by simp) hx, split]
      refine and_congr_right fun hc => not_congr (or_iff_left fun hl => ?_).symm
      obtain ⟨t', ht', hc'⟩ := lost_in' hx hl
      exact (hss t' ht').right x hc hc'
    case inr =>
      rw [k'.kept t ht (k.ext.has hx), top ht, lost hx, split]
      refine and_congr_right fun hc => not_congr (or_iff_right fun hl => ?_).symm
      exact (hss t ht).right x (lost_in hx hl) hc
  case kinds =>
    rcases split.mp hl with hl | hl
    · exact k.kinds hx hl
    · exact k.ext.kind? hx ▸ k'.kinds (k.ext.has hx) ((lost hx).mpr hl)
  case paths =>
    rcases List.mem_append.mp hm with hm | hm
    case inl => exact k.paths hm
    case inr =>
      obtain ⟨t, ht, w⟩ := k'.within _ hm
      obtain ⟨w, view⟩ := (agree ht).within v k.ext w
      have sub := (w.trans <| v.contains_child view.assignment_mem).trans <|
        v.contains_child view.target_mem
      have target := has_of_kind? view.target.right
      intro x hx
      rw [← k.ext.kind? (hx.has target)]
      exact k'.paths hm x (((agree ht).contains target.ne_none sub).mpr hx)
  case within =>
    rcases List.mem_append.mp hc with hc | hc
    case inl =>
      obtain ⟨s', hs', w⟩ := k.within c hc
      exact ⟨s, by simp, List.mem_singleton.mp hs' ▸ w⟩
    case inr =>
      obtain ⟨t, ht, w⟩ := k'.within c hc
      exact ⟨t, by simp [ht], (agree ht).within v k.ext w⟩
  case apart =>
    have first := k.apart hx fun s' hs' => List.mem_singleton.mp hs' ▸ hn s (by simp)
    have second := k'.apart (k.ext.has hx) fun t ht hc =>
      hn t (by simp [ht]) ((top ht).mp hc)
    exact ⟨second.left.trans first.left, second.right.trans first.right⟩

/- Whole conversions -/

def Workspace.summary (w : Workspace) : Summary where
  findings := w.findings
  stats := w.stats

theorem Stats.add_zero (s : Stats) : s.add {} = s := rfl

theorem Stats.zero_add (s : Stats) : Stats.add {} s = s := by
  simp [Stats.add]

theorem Stats.add_assoc (s t u : Stats) : (s.add t).add u = s.add (t.add u) := by
  simp [Stats.add, Nat.add_assoc]

theorem Summary.add_zero (s : Summary) : s.add {} = s := by
  simp [Summary.add, Stats.add_zero]

theorem Summary.zero_add (s : Summary) : Summary.add {} s = s := by
  simp [Summary.add, Stats.zero_add]

theorem Summary.add_assoc (s t u : Summary) : (s.add t).add u = s.add (t.add u) := by
  simp [Summary.add, Stats.add_assoc, List.append_assoc]

-- The changes of all scripts, each in the forest that the one before it has left.
def changesOf (options : Options) : List Ref → Forest → Log
  | [], _ => []
  | r :: rs, f =>
    if f.isKind r .script then
      f.changes options r ++ changesOf options rs (f.convertScript options r).2
    else
      changesOf options rs f

namespace Forest

def scripts (f : Forest) (root : Ref) : List Ref :=
  if f.isKind root .script then [root] else (f.children root).filter (f.isKind · .script)

def allChanges (f : Forest) (options : Options) (root : Ref) : Log :=
  if f.isKind root .script then f.changes options root else changesOf options (f.children root) f

end Forest

section Whole

variable {options : Options} {root script : Ref} {rs : List Ref} {total summary : Summary}

theorem kind?_of_mem_scripts (hs : script ∈ f.scripts root) : f.kind? script = some .script := by
  unfold scripts at hs
  split at hs
  case isTrue hk => exact List.mem_singleton.mp hs ▸ isKind_iff.mp hk
  case isFalse => exact isKind_iff.mp (List.mem_filter.mp hs).right

-- The trees of two children of a node have nothing in common.
theorem apart_of_parent (v : f.Valid) (hr : root ≠ none) (hs : f.parent s = root)
    (ht : f.parent t = root) (hn : s ≠ t) : Apart f s t := fun _ hsx htx =>
  hn <| v.child_unique (v.mem_children.mpr ⟨hs, hr⟩) (v.mem_children.mpr ⟨ht, hr⟩) hsx htx

-- Different children of one node.
structure Siblings (f : Forest) (root : Ref) (rs : List Ref) : Prop where
  ne_none : root ≠ none
  parents : ∀ r ∈ rs, f.parent r = root
  nodup   : rs.Nodup

namespace Siblings

theorem of_children (v : f.Valid) (hr : f.Has root) : Siblings f root (f.children root) where
  ne_none   := hr.ne_none
  parents _ := v.parent_eq
  nodup     := v.nodup root

theorem has (b : Siblings f root rs) (hs : s ∈ rs) : f.Has s :=
  has_of_parent_ne_none (b.parents s hs ▸ b.ne_none)

theorem tail (b : Siblings f root (s :: rs)) : Siblings f root rs where
  ne_none      := b.ne_none
  parents t ht := b.parents t (List.mem_cons_of_mem _ ht)
  nodup        := (List.nodup_cons.mp b.nodup).right

theorem ne (b : Siblings f root (s :: rs)) (ht : t ∈ rs) : s ≠ t :=
  fun e => (List.nodup_cons.mp b.nodup).left (e ▸ ht)

theorem apart (b : Siblings f root (s :: rs)) (v : f.Valid) (ht : t ∈ rs) : Apart f s t :=
  apart_of_parent v b.ne_none (b.parents s (List.mem_cons_self ..)) (b.tail.parents t ht) (b.ne ht)

-- What is done to the first of them leaves the others where they are.
theorem rest (b : Siblings f root (s :: rs)) (v : f.Valid)
    (kept : ∀ x, f.Has x → ¬f.Contains s x → g.parent x = f.parent x) : Siblings g root rs where
  ne_none      := b.ne_none
  parents t ht := (kept t (b.tail.has ht) fun hc => b.apart v ht t hc .refl).trans (b.tail.parents t ht)
  nodup        := b.tail.nodup

theorem filter_script (b : Siblings f root rs) (ext : g.Extends f) :
    rs.filter (g.isKind · .script) = rs.filter (f.isKind · .script) :=
  List.filter_congr fun _ ht => ext.isKind (b.has ht) _

end Siblings

theorem contains_of_mem_scripts (v : f.Valid) (hs : s ∈ f.scripts root) : f.Contains root s := by
  unfold scripts at hs
  split at hs
  · exact List.mem_singleton.mp hs ▸ .refl
  · exact v.contains_child (List.mem_filter.mp hs).left

/- What happens if nothing fails -/

theorem convertScript_ok (ok : f.convertScript options script = (.ok summary, g)) :
    ∃ w, f.runScript options script = (.ok (), w) ∧ summary = w.summary ∧ g = w.forest := by
  rcases run : f.runScript options script with ⟨⟨e⟩ | ⟨⟨⟩⟩, w⟩ <;>
    simp only [convertScript, run, Except.map] at ok <;> cases ok
  exact ⟨w, rfl, rfl, rfl⟩

theorem convertScripts_cons_ok (ok : convertScripts options (s :: rs) total f = (.ok summary, g)) :
    (¬f.isKind s .script ∧ convertScripts options rs total f = (.ok summary, g)) ∨
    (f.isKind s .script ∧ ∃ w, f.runScript options s = (.ok (), w) ∧
      convertScripts options rs (total.add w.summary) w.forest = (.ok summary, g)) := by
  rw [convertScripts] at ok
  by_cases hk : f.isKind s .script
  case neg =>
    rw [if_neg hk] at ok
    exact .inl ⟨hk, ok⟩
  case pos =>
    rw [if_pos hk] at ok
    rcases first : f.convertScript options s with ⟨⟨e⟩ | ⟨t⟩, f'⟩ <;> rw [first] at ok
    case error => cases ok
    case ok =>
      obtain ⟨w, run, rfl, rfl⟩ := convertScript_ok first
      exact .inr ⟨hk, w, run, ok⟩

theorem convert_ok (ok : f.convert options root = (.ok summary, g)) :
    (f.isKind root .script ∧ ∃ w, f.runScript options root = (.ok (), w) ∧
      summary = w.summary ∧ g = w.forest) ∨
    (¬f.isKind root .script ∧ f.kind? root = some .root ∧
      convertScripts options (f.children root) {} f = (.ok summary, g)) := by
  unfold convert at ok
  by_cases hk : f.isKind root .script
  case pos =>
    rw [if_pos hk] at ok
    exact .inl ⟨hk, convertScript_ok ok⟩
  case neg =>
    rw [if_neg hk] at ok
    cases expected : f.expectKind root .root <;> rw [expected] at ok
    case error => cases ok
    case ok => exact .inr ⟨hk, expectKind_eq_ok.mp expected, ok⟩

-- The conversions of scripts one after the other, with what their visits do and find.
inductive Series (options : Options) : List Ref → Forest → Log → Summary → Forest → Prop
  | nil {f : Forest} (valid : f.Valid) : Series options [] f [] {} f
  | cons {s : Ref} {ss : List Ref} {f g : Forest} {w : Workspace} {log : Log} {summary : Summary}
    (valid : f.Valid) (apart : ∀ t ∈ ss, f.Has t ∧ Apart f s t)
    (run : f.runScript options s = (.ok (), w)) (rest : Series options ss w.forest log summary g) :
    Series options (s :: ss) f (f.changes options s ++ log) (w.summary.add summary) g

theorem series_of_scripts (v : f.Valid) (b : Siblings f root rs)
    (ok : convertScripts options rs total f = (.ok summary, g)) :
    ∃ part, summary = total.add part ∧
      Series options (rs.filter (f.isKind · .script)) f (changesOf options rs f) part g := by
  induction rs generalizing f total
  case nil =>
    cases ok
    exact ⟨{}, (Summary.add_zero _).symm, .nil v⟩
  case cons r rs ih =>
    rcases convertScripts_cons_ok ok with ⟨hk, ok⟩ | ⟨hk, w, hc, ok⟩
    case inl =>
      rw [changesOf, if_neg hk, List.filter_cons, if_neg hk]
      exact ih v b.tail ok
    case inr =>
      rw [changesOf, if_pos hk, List.filter_cons, if_pos hk, convertScript, hc]
      obtain ⟨kind, run⟩ := run_of_ok v hc
      have p := run.progress v (has_of_kind? kind) (List.append_nil _).symm
      have inside (x : Ref) : x ∈ f.postorder r → f.Contains r x :=
        (v.mem_postorder (has_of_kind? kind).ne_none).mp
      have after := b.rest v fun x hx hn => (p.apart v kind inside hx hn).right
      obtain ⟨part, rfl, rest⟩ := ih p.valid after ok
      rw [b.tail.filter_script p.ext] at rest
      refine ⟨w.summary.add part, Summary.add_assoc .., .cons v (fun t ht => ?_) hc rest⟩
      have ht := (List.mem_filter.mp ht).left
      exact ⟨b.tail.has ht, b.apart v ht⟩

theorem series_of_ok (v : f.Valid) (ok : f.convert options root = (.ok summary, g)) :
    Series options (f.scripts root) f (f.allChanges options root) summary g := by
  rw [scripts, allChanges]
  rcases convert_ok ok with ⟨hk, w, hr, rfl, rfl⟩ | ⟨hk, top, ok⟩
  case inl =>
    rw [if_pos hk, if_pos hk]
    obtain ⟨kind, run⟩ := run_of_ok v hr
    have p := run.progress v (has_of_kind? kind) (List.append_nil _).symm
    simpa [Summary.add_zero] using Series.cons v (by simp) hr (.nil p.valid)
  case inr =>
    rw [if_neg hk, if_neg hk]
    obtain ⟨part, rfl, series⟩ := series_of_scripts v (.of_children v (has_of_kind? top)) ok
    rw [Summary.zero_add]
    exact series

-- The same for scripts in which every node has the children that its kind calls for.
inductive Passes (options : Options) : List Ref → Forest → Log → Summary → Forest → Prop
  | nil {f : Forest} (valid : f.Valid) : Passes options [] f [] {} f
  | cons {s : Ref} {ss : List Ref} {f g : Forest} {w : Workspace} {log : Log} {summary : Summary}
    (valid : f.Valid) (formed : f.Formed s) (apart : ∀ t ∈ ss, f.Has t ∧ Apart f s t)
    (run : f.runScript options s = (.ok (), w)) (rest : Passes options ss w.forest log summary g) :
    Passes options (s :: ss) f (f.changes options s ++ log) (w.summary.add summary) g

theorem Passes.converts {ss : List Ref} (h : Passes options ss f log summary g) :
    Converts f g ss log := by
  induction h
  case nil v => exact .nil v
  case cons valid formed apart run _ ih =>
    exact (converts_script valid formed run).cons ih valid (has_of_kind? (run_of_ok valid run).left) apart

theorem Series.passes {ss : List Ref} (h : Series options ss f log summary g)
    (formed : ∀ s ∈ ss, f.Formed s) : Passes options ss f log summary g := by
  induction h
  case nil v => exact .nil v
  case cons s ss f g w log summary valid apart run _ ih =>
    have first := formed s (by simp)
    have k := converts_script valid first run
    refine .cons valid first apart run (ih fun t ht => ?_)
    have ⟨has, apart⟩ := apart t ht
    exact (k.agree valid has apart).formed valid k.ext (formed t (by simp [ht]))

theorem passes_of_formed (v : f.Valid) (formed : f.Formed root)
    (ok : f.convert options root = (.ok summary, g)) :
    Passes options (f.scripts root) f (f.allChanges options root) summary g :=
  (series_of_ok v ok).passes fun _ hs => formed.below (contains_of_mem_scripts v hs)

theorem passes_of_ok (v : f.Valid) (shaped : f.isShaped)
    (ok : f.convert options root = (.ok summary, g)) :
    Passes options (f.scripts root) f (f.allChanges options root) summary g :=
  passes_of_formed v (shaped_of_isShaped shaped root).formed ok

theorem converts_of_ok (v : f.Valid) (shaped : f.isShaped)
    (ok : f.convert options root = (.ok summary, g)) :
    Converts f g (f.scripts root) (f.allChanges options root) :=
  (passes_of_ok v shaped ok).converts

theorem root_of_ok (ok : f.convert options root = (.ok summary, g)) :
    f.kind? root = some .script ∨ f.kind? root = some .root := by
  rcases convert_ok ok with ⟨hk, _⟩ | ⟨_, top, _⟩
  case inl => exact .inl (isKind_iff.mp hk)
  case inr => exact .inr top

theorem scripts_of_script (hk : f.kind? root = some .script) : f.scripts root = [root] :=
  if_pos (isKind_iff.mpr hk)

theorem scripts_of_root (hk : f.kind? root = some .root) :
    f.scripts root = (f.children root).filter (f.isKind · .script) :=
  if_neg (by simp [isKind_iff, hk])

theorem mem_scripts (hk : f.kind? root = some .root) :
    s ∈ f.scripts root ↔ s ∈ f.children root ∧ f.kind? s = some .script := by
  rw [scripts_of_root hk, List.mem_filter, isKind_iff]

-- What hangs below a root is in one of its scripts, as it was before.
theorem Converts.children_root (k : Converts f g (f.scripts root) log) (v : f.Valid)
    (hk : f.kind? root = some .root) : g.children root = f.children root :=
  (k.apart (has_of_kind? hk) fun _ hs => v.not_contains_of_child ((mem_scripts hk).mp hs).left).left

-- What is reached from a script afterwards, of all the nodes that there were, is what was reached
-- before without what the changes have replaced. No node is reached on two ways.
theorem no_code_lost (h : f.check = .ok ()) (shaped : f.isShaped)
    (ok : f.convert options root = (.ok summary, g)) (hs : script ∈ f.scripts root) :
    let log := f.allChanges options root
    (∀ x, f.Has x → (g.Reaches script x ↔ f.Reaches script x ∧ ¬Lost f log x)) ∧
    (∀ x, x ≠ none → g.Reaches script x → ∃! path, g.follow script path = x) ∧
    (∀ x k, f.kind? x = some k → f.Reaches script x → k ≠ .function → k ≠ .expressionStatement →
      ¬k.isDropped → g.Reaches script x) ∧
    ∀ m member, .merge m member ∈ log → ∀ x, f.Has x → f.Reaches m.target x →
      ∃ k, f.kind? x = some k ∧ k.isPathPart := by
  have v := valid_of_check h
  have k := converts_of_ok v shaped ok
  have hs' := (has_of_kind? (kind?_of_mem_scripts hs)).ne_none
  have reaches {f : Forest} (v : f.Valid) {x : Ref} (hx : f.Has x) :
      f.Reaches script x ↔ f.Contains script x :=
    v.reaches_iff hs' hx.ne_none
  have kept {x : Ref} (hx : f.Has x) :
      g.Reaches script x ↔ f.Reaches script x ∧ ¬Lost f (f.allChanges options root) x := by
    rw [reaches k.valid (k.ext.has hx), reaches v hx, k.kept script hs hx]
  refine ⟨fun x => kept, fun x => k.valid.exists_unique_path,
    fun x kind hk hx hf he hd => ?stays, fun m member hm x hx hr => ?paths⟩
  case stays =>
    refine (kept (has_of_kind? hk)).mpr ⟨hx, fun hl => ?_⟩
    obtain ⟨kind', hk', h⟩ := (Option.any_eq_true _ _).mp (k.kinds (has_of_kind? hk) hl)
    cases hk.symm.trans hk'
    simp [hf, he, hd] at h
  case paths =>
    obtain ⟨s, -, w⟩ := k.within _ hm
    have ht := (has_of_kind? w.right.target.right).ne_none
    exact (k.paths hm).kind?_eq <| (v.reaches_iff ht hx.ne_none).mp hr

theorem sample_convert :
    let w := (sample.foldScript {} (some 0)).2
    sample.convert {} (some 0) = (.ok { findings := w.findings, stats := w.stats }, w.forest) :=
  convert_of_foldScript sample_check rfl rfl

-- The body of the function is still there when the function has become a class.
theorem no_code_lost_sample :
    sample.isShaped ∧ some 0 ∈ sample.scripts (some 0) ∧ sample.Reaches (some 0) (some 4) ∧
      (sample.foldScript {} (some 0)).2.forest.Reaches (some 0) (some 4) := by
  have shaped : sample.isShaped := rfl
  have hs : some 0 ∈ sample.scripts (some 0) := by decide
  have reached : sample.Reaches (some 0) (some 4) := ⟨[0, 2], rfl⟩
  have ⟨_, _, stays, _⟩ := no_code_lost sample_check shaped sample_convert hs
  exact ⟨shaped, hs, reached, stays (some 4) .block rfl reached nofun nofun nofun⟩

end Whole

end ClassLift
