import ClassLift.Proofs.Convert.Progress
import ClassLift.Proofs.Tree.Postorder

/-!
Visits of a list of nodes, one after the other. In the order from the leaves up every node finds its
children visited and itself where it was.
-/

namespace ClassLift

namespace Workspace

-- The changes that the visits make, and the outcome. The first error ends them.
def visitAll (options : Options) : List Ref → Workspace → Log × Outcome Unit
  | [], w => ([], .ok (), w)
  | r :: rs, w =>
    match w.visit options r with
    | (.ok change, w) =>
      let (log, outcome) := visitAll options rs w
      (change.toList ++ log, outcome)
    | (.error e, w) => ([], .error e, w)

variable {options : Options} {w w' : Workspace} {r : Ref} {rs : List Ref} {log : Log}
variable {change : Option Change} {e : ConversionError}

theorem visitAll_cons_ok (h : w.visit options r = (.ok change, w')) :
    visitAll options (r :: rs) w =
      (change.toList ++ (visitAll options rs w').1, (visitAll options rs w').2) := by
  rw [visitAll, h]

theorem visitAll_cons_error (h : w.visit options r = (.error e, w')) :
    visitAll options (r :: rs) w = ([], .error e, w') := by
  rw [visitAll, h]

theorem visitAll_append_ok (h : visitAll options rs w = (log, .ok (), w')) (ss : List Ref) :
    visitAll options (rs ++ ss) w =
      (log ++ (visitAll options ss w').1, (visitAll options ss w').2) := by
  induction rs generalizing w log
  case nil =>
    cases h
    rfl
  case cons r rs ih =>
    rcases hv : w.visit options r with ⟨⟨e⟩ | ⟨change⟩, w₁⟩
    case error => simp [visitAll_cons_error hv] at h
    case ok =>
      simp only [visitAll_cons_ok hv, Prod.mk.injEq] at h
      obtain ⟨rfl, h⟩ := h
      have ih := ih (Prod.ext rfl h)
      rw [List.cons_append, visitAll_cons_ok hv, ih, List.append_assoc]

theorem visitAll_append_error (h : visitAll options rs w = (log, .error e, w')) (ss : List Ref) :
    visitAll options (rs ++ ss) w = (log, .error e, w') := by
  induction rs generalizing w log
  case nil => simp [visitAll] at h
  case cons r rs ih =>
    rcases hv : w.visit options r with ⟨⟨e⟩ | ⟨change⟩, w₁⟩
    case error =>
      rw [visitAll_cons_error hv] at h
      rw [List.cons_append, visitAll_cons_error hv, h]
    case ok =>
      simp only [visitAll_cons_ok hv, Prod.mk.injEq] at h
      obtain ⟨rfl, h⟩ := h
      rw [List.cons_append, visitAll_cons_ok hv, ih (Prod.ext rfl h)]

-- The visits before one that fails have not failed.
theorem visitAll_error (h : visitAll options rs w = (log, .error e, w')) :
    ∃ before r after w₁, rs = before ++ r :: after ∧ visitAll options before w = (log, .ok (), w₁) ∧
      w₁.visit options r = (.error e, w') := by
  induction rs generalizing w log
  case nil => simp [visitAll] at h
  case cons r rs ih =>
    rcases hv : w.visit options r with ⟨⟨e⟩ | ⟨change⟩, w₁⟩
    case error =>
      rw [visitAll_cons_error hv] at h
      cases h
      exact ⟨[], r, rs, w, rfl, rfl, hv⟩
    case ok =>
      simp only [visitAll_cons_ok hv, Prod.mk.injEq] at h
      obtain ⟨rfl, h⟩ := h
      obtain ⟨before, x, after, w₂, rfl, hb, hx⟩ := ih (Prod.ext rfl h)
      exact ⟨r :: before, x, after, w₂, rfl, by rw [visitAll_cons_ok hv, hb], hx⟩

end Workspace

open Workspace Forest

variable {options : Options} {f : Forest} {script r : Ref} {done rs rest : List Ref} {log log' : Log}
variable {w w' : Workspace} {change : Option Change}

-- The visits of a run so far, one at a time.
inductive Run (options : Options) (f : Forest) : List Ref → Log → Workspace → Prop
  | start : Run options f [] [] { forest := f }
  | visit {done : List Ref} {log : Log} {w w' : Workspace} {r : Ref} {change : Option Change} :
    Run options f done log w → w.visit options r = (.ok change, w') →
    Run options f (done ++ [r]) (log ++ change.toList) w'

theorem Run.visitAll (run : Run options f done log w) (h : visitAll options rs w = (log', .ok (), w')) :
    Run options f (done ++ rs) (log ++ log') w' := by
  induction rs generalizing done log w log'
  case nil =>
    cases h
    simpa using run
  case cons r rs ih =>
    rcases hv : w.visit options r with ⟨⟨e⟩ | ⟨change⟩, w₁⟩
    case error => simp [visitAll_cons_error hv] at h
    case ok =>
      simp only [visitAll_cons_ok hv, Prod.mk.injEq] at h
      obtain ⟨rfl, h⟩ := h
      have := ih (run.visit hv) (Prod.ext rfl h)
      simpa [List.append_assoc] using this

-- A node of the order finds itself where it was, and all that is below it visited.
structure Turn (f : Forest) (done : List Ref) (r : Ref) : Prop where
  has      : f.Has r
  fresh    : r ∉ done
  children : ∀ c ∈ f.children r, c ∈ done

theorem turn_of_postorder (v : f.Valid) (hs : f.Has script)
    (h : f.postorder script = done ++ r :: rest) : Turn f done r where
  has        := by
    have hm : r ∈ f.postorder script := by simp [h]
    exact ((v.mem_postorder hs.ne_none).mp hm).has hs
  fresh      := v.not_mem_before hs.ne_none h
  children _ := v.child_mem_before hs.ne_none h

theorem contains_of_postorder (v : f.Valid) (hs : f.Has script)
    (h : f.postorder script = done ++ r :: rest) :
    f.Contains script r ∧ ∀ x ∈ done, f.Contains script x := by
  have mem {x : Ref} (hx : x ∈ done ++ r :: rest) : f.Contains script x :=
    (v.mem_postorder hs.ne_none).mp (h ▸ hx)
  exact ⟨mem (by simp), fun x hx => mem (List.mem_append_left _ hx)⟩

theorem Progress.visit (p : Progress f done log w) (v : f.Valid) (t : Turn f done r)
    (h : w.visit options r = (.ok change, w')) :
    Progress f (done ++ [r]) (log ++ change.toList) w' :=
  p.step v t.has t.fresh t.children (visited_of_ok p.valid h)

theorem Progress.visitAll (p : Progress f done log w) (v : f.Valid) (hs : f.Has script)
    (h : f.postorder script = done ++ (rs ++ rest))
    (hv : Workspace.visitAll options rs w = (log', .ok (), w')) :
    Progress f (done ++ rs) (log ++ log') w' := by
  induction rs generalizing done log w log'
  case nil =>
    cases hv
    simpa using p
  case cons r rs ih =>
    rcases hr : w.visit options r with ⟨⟨e⟩ | ⟨change⟩, w₁⟩
    case error => simp [visitAll_cons_error hr] at hv
    case ok =>
      simp only [visitAll_cons_ok hr, Prod.mk.injEq] at hv
      obtain ⟨rfl, hv⟩ := hv
      have := ih (p.visit v (turn_of_postorder v hs h) hr) (by simpa using h) (Prod.ext rfl hv)
      simpa [List.append_assoc] using this

theorem Run.progress (run : Run options f done log w) (v : f.Valid) (hs : f.Has script)
    (h : f.postorder script = done ++ rest) : Progress f done log w := by
  induction run generalizing rest
  case start => exact .start v
  case visit run hv ih =>
    rw [List.append_assoc] at h
    exact (ih h).visit v (turn_of_postorder v hs h) hv

-- What every visit preserves holds after the visits of a run.
theorem Run.invariant {motive : List Ref → Log → Workspace → Prop} (run : Run options f done log w)
    (v : f.Valid) (hs : f.Has script) (h : f.postorder script = done ++ rest)
    (start : motive [] [] { forest := f })
    (step : ∀ {done log w r rest change w'}, f.postorder script = done ++ r :: rest →
      Run options f done log w → motive done log w → w.Visited options r change w' →
      motive (done ++ [r]) (log ++ change.toList) w') : motive done log w := by
  induction run generalizing rest
  case start => exact start
  case visit run hv ih =>
    rw [List.append_assoc] at h
    exact step h run (ih h) (visited_of_ok (run.progress v hs h).valid hv)

end ClassLift
