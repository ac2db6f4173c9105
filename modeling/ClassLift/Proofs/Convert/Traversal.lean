import ClassLift.Proofs.Convert.Fold

/-!
The loop over the stack of tasks visits the nodes of the original tree from the leaves up, each one
once. Nothing that a visit does disturbs the tasks that are still on the stack.
-/

namespace ClassLift

open Workspace Forest

variable {options : Options} {f : Forest} {script r c : Ref} {done order order' rest cs : List Ref}
variable {log : Log} {w w' : Workspace} {ts ts' : List Task} {depth : Nat}

-- Turn for turn, what the loop gives.
theorem work_eq (tasks : List Task) (w : Workspace) :
    work options script tasks w =
      match turn options script (tasks, w) with
      | .inl (tasks, w) => work options script tasks w
      | .inr outcome => outcome := by
  unfold work
  rw [repeatM_eq_of_monadTail]
  simp only [repeatM.body, pure_bind]
  cases turn options script (tasks, w) <;> rfl

-- A course of the loop in which no task meets a detached node, the nodes that it visits, and its
-- outcome.
inductive Course (options : Options) (script : Ref) :
    List Task → Workspace → List Ref → Outcome Unit → Prop
  | done {w : Workspace} : Course options script [] w [] (.ok (), w)
  | enter {r : Ref} {ts : List Task} {w : Workspace} {visits : List Ref} {o : Outcome Unit} :
    w.isDetached script r = false →
    Course options script ((w.forest.children r).map .enter ++ .leave r :: ts) w visits o →
    Course options script (.enter r :: ts) w visits o
  | leave {r : Ref} {ts : List Task} {w w' : Workspace} {change : Option Change}
    {visits : List Ref} {o : Outcome Unit} :
    w.isDetached script r = false → w.visit options r = (.ok change, w') →
    Course options script ts w' visits o →
    Course options script (.leave r :: ts) w (r :: visits) o
  | fail {r : Ref} {ts : List Task} {w w' : Workspace} {e : ConversionError} :
    w.isDetached script r = false → w.visit options r = (.error e, w') →
    Course options script (.leave r :: ts) w [r] (.error e, w')

theorem Course.work_eq {visits : List Ref} {o : Outcome Unit}
    (c : Course options script ts w visits o) : work options script ts w = o := by
  induction c <;> rw [ClassLift.work_eq]
  case done => rfl
  case enter hd _ ih =>
    rw [turn, hd, if_neg (by simp)]
    exact ih
  case leave hd hv _ ih =>
    rw [turn, hd, if_neg (by simp), hv]
    exact ih
  case fail hd hv => rw [turn, hd, if_neg (by simp), hv]

-- The loop has no choice.
theorem Course.unique {visits visits' : List Ref} {o o' : Outcome Unit}
    (c : Course options script ts w visits o) (c' : Course options script ts w visits' o') :
    visits = visits' ∧ o = o' := by
  induction c generalizing visits' o'
  case done =>
    cases c'
    exact ⟨rfl, rfl⟩
  case enter ih =>
    cases c'
    case enter c' => exact ih c'
  case leave hv _ ih =>
    cases c'
    case leave hv' c' =>
      cases hv.symm.trans hv'
      have ⟨e, eo⟩ := ih c'
      exact ⟨congrArg _ e, eo⟩
    case fail hv' => cases hv.symm.trans hv'
  case fail hv =>
    cases c'
    case leave hv' _ => cases hv.symm.trans hv'
    case fail hv' =>
      cases hv.symm.trans hv'
      exact ⟨rfl, rfl⟩

-- The tasks lead to visits in this order, whatever comes after them.
def Leads (options : Options) (script : Ref) (ts : List Task) (order : List Ref) (w : Workspace) :
    Prop :=
  match (visitAll options order w).2 with
  | (.ok (), w') => ∀ rest visits o, Course options script rest w' visits o →
    Course options script (ts ++ rest) w (order ++ visits) o
  | (.error e, w') => ∀ rest, ∃ visits, visits <+: order ∧
    Course options script (ts ++ rest) w visits (.error e, w')

namespace Leads

theorem nil : Leads options script [] [] w := fun _ _ _ c => c

theorem append (h : Leads options script ts order w)
    (h' : ∀ log w', visitAll options order w = (log, .ok (), w') →
      Leads options script ts' order' w') :
    Leads options script (ts ++ ts') (order ++ order') w := by
  rcases hv : visitAll options order w with ⟨log, ⟨e⟩ | ⟨⟨⟩⟩, w'⟩
  case error =>
    unfold Leads at h ⊢
    rw [visitAll_append_error hv]
    simp only [hv] at h ⊢
    intro rest
    obtain ⟨visits, hp, c⟩ := h (ts' ++ rest)
    exact ⟨visits, hp.trans (List.prefix_append ..), by simpa using c⟩
  case ok =>
    replace h' := h' log w' hv
    unfold Leads at h h' ⊢
    rw [visitAll_append_ok hv]
    simp only [hv] at h ⊢
    split
    case h_1 w'' hw =>
      simp only [hw] at h'
      intro rest visits o c
      simpa using h _ _ _ (h' rest visits o c)
    case h_2 e w'' hw =>
      simp only [hw] at h'
      intro rest
      obtain ⟨visits, hp, c⟩ := h' rest
      exact ⟨order ++ visits, (List.prefix_append_right_inj order).mpr hp, by simpa using h _ _ _ c⟩

theorem leave (hd : w.isDetached script r = false) : Leads options script [.leave r] [r] w := by
  unfold Leads
  rcases hv : w.visit options r with ⟨⟨e⟩ | ⟨change⟩, w'⟩
  case error =>
    rw [visitAll_cons_error hv]
    exact fun rest => ⟨[r], List.prefix_refl _, .fail hd hv⟩
  case ok =>
    rw [visitAll_cons_ok hv]
    exact fun rest visits o c => .leave hd hv c

theorem enter (hd : w.isDetached script r = false)
    (h : Leads options script ((w.forest.children r).map .enter ++ [.leave r]) order w) :
    Leads options script [.enter r] order w := by
  unfold Leads at h ⊢
  split
  case h_1 w' hw =>
    simp only [hw] at h
    exact fun rest visits o c => .enter hd (by simpa using h rest visits o c)
  case h_2 e w' hw =>
    simp only [hw] at h
    intro rest
    obtain ⟨visits, hp, c⟩ := h rest
    exact ⟨visits, hp, .enter hd (by simpa using c)⟩

end Leads

-- What is below a script hangs below something, as long as it is still to be visited.
theorem Progress.isDetached_eq (p : Progress f done log w) (v : f.Valid) (hs : f.Has script)
    (hc : f.Contains script r) (hr : r ∉ done) : w.isDetached script r = false := by
  have hf : f.Has r := hc.has hs
  rw [isDetached, p.parent_eq v hf hr]
  by_cases e : r = script
  case pos => simp [e]
  case neg =>
    have hp : f.parent r ≠ none := (hc.parent_of_ne e).ne_none hs.ne_none
    simp [beq_eq_false_iff_ne.mpr hp]

section Subtree

variable (v : f.Valid) (hs : f.Has script)
include v hs

theorem fresh_of_order (h : f.postorder script = done ++ (order ++ rest)) (hr : r ∈ order) :
    f.Contains script r ∧ r ∉ done := by
  have hm : r ∈ f.postorder script := by
    rw [h]
    exact List.mem_append_right _ (List.mem_append_left _ hr)
  refine ⟨(v.mem_postorder hs.ne_none).mp hm, fun hd => ?_⟩
  have hn := h ▸ v.nodup_postorder hs.ne_none
  exact (List.nodup_append'.mp hn).right.right hd (List.mem_append_left _ hr)

-- If a tree of this depth leads to the visits of its nodes, so do trees one after the other.
theorem leads_children
    (tree : ∀ {r done rest log w}, f.Shallow depth r →
      f.postorder script = done ++ (f.postorderWithin depth r ++ rest) → Progress f done log w →
      Leads options script [.enter r] (f.postorderWithin depth r) w)
    (hd : ∀ c ∈ cs, f.Shallow depth c)
    (h : f.postorder script = done ++ (cs.flatMap (f.postorderWithin depth) ++ rest))
    (p : Progress f done log w) :
    Leads options script (cs.map .enter) (cs.flatMap (f.postorderWithin depth)) w := by
  induction cs generalizing done log w
  case nil => exact .nil
  case cons c cs ih =>
    rw [List.flatMap_cons, List.append_assoc] at h
    refine (tree (hd c (by simp)) h p).append fun log' w' hv => ?_
    exact ih (fun c hc => hd c (by simp [hc])) (by simpa using h) (p.visitAll v hs h hv)

theorem leads_subtree (hd : f.Shallow depth r)
    (h : f.postorder script = done ++ (f.postorderWithin depth r ++ rest))
    (p : Progress f done log w) :
    Leads options script [.enter r] (f.postorderWithin depth r) w := by
  induction depth generalizing r done rest log w
  case zero => exact absurd hd Shallow.not_zero
  case succ depth ih =>
    have ⟨hc, hr⟩ := fresh_of_order v hs h (r := r) (by simp [postorderWithin])
    have hr' := (hc.has hs).ne_none
    have children : w.forest.children r = f.children r :=
      p.children_eq (hc.has hs) hr fun c hc =>
        (fresh_of_order v hs h (mem_postorderWithin v hd hr' (v.contains_child hc))).right
    rw [postorderWithin] at h ⊢
    refine .enter (p.isDetached_eq v hs hc hr) ?_
    rw [children]
    rw [List.append_assoc] at h
    refine .append (leads_children v hs ih (fun c hc => hd.child v hc) h p) fun log' w' hv => ?_
    have p' := p.visitAll v hs h hv
    rw [← List.append_assoc] at h
    exact .leave (p'.isDetached_eq v hs hc (fresh_of_order v hs h (by simp)).right)

end Subtree

/- The whole run -/

-- The kind of the script is checked, and then its nodes are visited from the leaves up.
def Forest.foldScript (f : Forest) (options : Options) (script : Ref) : Outcome Unit :=
  match f.expectKind script .script with
  | .error e => (.error (.tree e), { forest := f })
  | .ok () => (visitAll options (f.postorder script) { forest := f }).2

theorem foldScript_of_kind (hs : f.kind? script = some .script) :
    f.foldScript options script = (visitAll options (f.postorder script) { forest := f }).2 := by
  rw [foldScript, expectKind_eq_ok (u := ()) |>.mpr hs]

theorem course_of_script (v : f.Valid) (hs : f.Has script) (options : Options) :
    ∃ visits, Course options script [.enter script] { forest := f } visits
        (visitAll options (f.postorder script) { forest := f }).2 ∧
      visits <+: f.postorder script ∧
      ((visitAll options (f.postorder script) { forest := f }).2.1 = .ok () →
        visits = f.postorder script) := by
  have order : f.postorder script = [] ++ (f.postorder script ++ []) := by simp
  have leads : Leads options script [.enter script] (f.postorder script) { forest := f } :=
    leads_subtree v hs (v.shallow hs.ne_none) order (.start v)
  unfold Leads at leads
  split at leads
  case h_1 w hw =>
    rw [hw]
    have c := leads [] [] _ .done
    exact ⟨f.postorder script, by simpa using c, List.prefix_refl _, fun _ => rfl⟩
  case h_2 e w hw =>
    rw [hw]
    obtain ⟨visits, hp, c⟩ := leads []
    exact ⟨visits, c, hp, fun h => nomatch h⟩

theorem runScript_eq_foldScript (v : f.Valid) :
    f.runScript options script = f.foldScript options script := by
  cases hk : f.expectKind script .script
  case error => simp [runScript, foldScript, hk]
  case ok =>
    have hs := has_of_kind? (expectKind_eq_ok.mp hk)
    obtain ⟨_, c, -⟩ := course_of_script v hs options
    simp [runScript, foldScript, hk, walk, c.work_eq]

theorem convert_of_script (v : f.Valid) (hk : f.isKind script .script) :
    f.convert options script =
      ((f.foldScript options script).1.map fun () =>
        let w := (f.foldScript options script).2
        { findings := w.findings, stats := w.stats },
      (f.foldScript options script).2.forest) := by
  rw [convert, if_pos hk, convertScript, runScript_eq_foldScript v]

theorem convert_of_foldScript (h : f.check = .ok ()) (hk : f.isKind script .script)
    (ok : (f.foldScript options script).1 = .ok ()) :
    let w := (f.foldScript options script).2
    f.convert options script = (.ok { findings := w.findings, stats := w.stats }, w.forest) := by
  rw [convert_of_script (valid_of_check h) hk, ok]
  rfl

-- What the visits of a run report.
def Forest.changes (f : Forest) (options : Options) (script : Ref) : Log :=
  (visitAll options (f.postorder script) { forest := f }).1

theorem run_of_ok (v : f.Valid) (h : f.runScript options script = (.ok (), w)) :
    f.kind? script = some .script ∧
      Run options f (f.postorder script) (f.changes options script) w := by
  rw [runScript_eq_foldScript v] at h
  have hs : f.kind? script = some .script := by
    cases hk : f.expectKind script .script
    case error => simp [foldScript, hk] at h
    case ok => exact expectKind_eq_ok.mp hk
  rw [foldScript_of_kind hs] at h
  exact ⟨hs, by simpa [changes] using Run.start.visitAll (Prod.ext rfl h)⟩

-- The run over the changing forest is a fold over the original tree. No task of the loop is skipped,
-- and each node is visited once, where it has always been.
theorem convertScript_eq_fold (h : f.check = .ok ()) (hs : f.kind? script = some .script)
    (options : Options) :
    f.runScript options script = f.foldScript options script ∧
    f.convertScript options script =
      ((f.foldScript options script).1.map fun () =>
        let w := (f.foldScript options script).2
        { findings := w.findings, stats := w.stats },
      (f.foldScript options script).2.forest) ∧
    (∀ r, f.Contains script r → f.postorder r = (f.children r).flatMap f.postorder ++ [r]) ∧
    (f.postorder script).Nodup ∧
    (∀ r, r ∈ f.postorder script ↔ f.Contains script r) ∧
    (∃ visits, Course options script [.enter script] { forest := f } visits
        (f.runScript options script) ∧
      visits <+: f.postorder script ∧
      ((f.runScript options script).1 = .ok () → visits = f.postorder script)) ∧
    ∀ before r after log w, f.postorder script = before ++ r :: after →
      visitAll options before { forest := f } = (log, .ok (), w) →
      f.Has r ∧ w.isDetached script r = false ∧ w.forest.parent r = f.parent r := by
  have v := valid_of_check h
  have has := has_of_kind? hs
  have run : f.runScript options script = f.foldScript options script := runScript_eq_foldScript v
  refine ⟨run, ?converted, fun r hr => v.postorder_eq (hr.ne_none has.ne_none),
    v.nodup_postorder has.ne_none, fun r => v.mem_postorder has.ne_none, ?course, ?places⟩
  case converted => rw [convertScript, run]
  case course =>
    rw [run, foldScript_of_kind hs]
    exact course_of_script v has options
  case places =>
    intro before r after log w order hv
    have t := turn_of_postorder v has order
    have p : Progress f before log w := by
      have := (Progress.start v).visitAll v has (show f.postorder script = [] ++ (before ++ _) from order) hv
      simpa using this
    have hc : f.Contains script r := (v.mem_postorder has.ne_none).mp (by simp [order])
    exact ⟨t.has, p.isDetached_eq v has hc t.fresh, p.parent_eq v t.has t.fresh⟩

-- A documented function `A`, and a method that is assigned to its prototype.
def sample : Forest where
  nodes := #[
    { kind := .script, data := some 0, children := [some 1, some 5] },
    { kind := .function, doc := some 0, parent := some 0, children := [some 2, some 3, some 4] },
    { kind := .identifier, data := some 0, parent := some 1 },
    { kind := .parameterList, parent := some 1 },
    { kind := .block, parent := some 1 },
    { kind := .expressionStatement, parent := some 0, children := [some 6] },
    { kind := .assignment, parent := some 5, children := [some 7, some 12] },
    { kind := .propertyAccess, parent := some 6, children := [some 8, some 11] },
    { kind := .propertyAccess, parent := some 7, children := [some 9, some 10] },
    { kind := .identifier, data := some 0, parent := some 8 },
    { kind := .identifier, data := some 1, parent := some 8 },
    { kind := .identifier, data := some 2, parent := some 7 },
    { kind := .function, parent := some 6, children := [some 13, some 14, some 15] },
    { kind := .empty, parent := some 12 },
    { kind := .parameterList, parent := some 12 },
    { kind := .block, parent := some 12 }]
  texts := #["A", "prototype", "m"]
  files := #["a.js"]
  docs := #[.constructor none none]

theorem sample_check : sample.check = .ok () :=
  (check_eq_checkChains _).trans rfl

theorem sample_run : sample.runScript {} (some 0) = (.ok (), (sample.foldScript {} (some 0)).2) := by
  rw [runScript_eq_foldScript (valid_of_check sample_check)]
  exact Prod.ext rfl rfl

theorem convertScript_sample :
    sample.kind? (some 0) = some .script ∧
    sample.runScript {} (some 0) = sample.foldScript {} (some 0) :=
  ⟨rfl, (convertScript_eq_fold sample_check rfl {}).left⟩

end ClassLift
