import ClassLift.Proofs.Tree.Containment
import Mathlib.Data.List.Perm.Subperm

/-!
The walk that looks for circles among the parent links. The nodes on its path lead to the node that it
has come to, and the nodes that it has finished with have a top, also those that an earlier walk has
marked. It is told here what the walks find in any forest, whatever its links are.
-/

namespace ClassLift.Forest

variable {f : Forest} {r : Ref} {i start : NodeId}

/- Chains that are as long as the forest -/

theorem lineageWithin_add (m n : Nat) (r : Ref) :
    f.lineageWithin (m + n) r = f.lineageWithin m r ++ f.lineageWithin n (f.climb m r) := by
  induction m generalizing r
  case zero => simp
  case succ m ih =>
    cases r
    case none => cases n <;> simp [lineageWithin, climb_none]
    case some i => simp [lineageWithin, climb, Nat.add_right_comm m 1, ih]

-- A node with a link to another one is there.
theorem lt_size_of_mem_lineageWithin {n : Nat} (long : f.climb n r ≠ none)
    (h : i ∈ f.lineageWithin n r) : i < f.size := by
  induction n generalizing r
  case zero => simp at h
  case succ n ih =>
    cases r
    case none => simp [lineageWithin] at h
    case some j =>
      rw [lineageWithin, List.mem_cons] at h
      rcases h with rfl | h
      case inr => exact ih long h
      case inl =>
        have linked : f.parent (some i) ≠ none := fun top =>
          long (by simp [climb, top, climb_none])
        obtain ⟨j, hj, e⟩ := has_iff.mp (has_of_parent_ne_none linked)
        exact Option.some.inj e ▸ hj

theorem length_le_size {xs : List NodeId} (nodup : xs.Nodup) (inside : ∀ i ∈ xs, i < f.size) :
    xs.length ≤ f.size := by
  have sub : xs ⊆ List.range f.size := fun i hi => List.mem_range.mpr (inside i hi)
  simpa using (nodup.subperm sub).length_le

theorem Rooted.climb_succ_size (h : f.Rooted r) : f.climb (f.size + 1) r = none := by
  by_contra long
  have bound := length_le_size (nodup_lineageWithin h) fun i => lt_size_of_mem_lineageWithin long
  have length := length_lineageWithin fun top => long (climb_of_le top (Nat.le_succ f.size))
  omega

theorem climb_eq_none_iff : f.climb (f.size + 1) r = none ↔ f.Rooted r :=
  ⟨rooted_of_climb, Rooted.climb_succ_size⟩

/- The node that comes a second time -/

-- The first node on the way up from `r` that comes a second time.
def firstRepeated (f : Forest) (r : Ref) : Ref :=
  let path := f.lineage r
  (path.zipIdx.find? fun (i, k) => i ∈ path.take k).map (·.1)

-- Nothing comes a second time in a list without repetitions, and `i` does right behind it.
theorem find?_repeated {xs ys : List NodeId} (nodup : xs.Nodup) (again : i ∈ xs) :
    ((xs ++ i :: ys).zipIdx.find? fun (x, k) => x ∈ (xs ++ i :: ys).take k) = some (i, xs.length) := by
  have first : (xs.zipIdx.find? fun (x, k) => x ∈ (xs ++ i :: ys).take k) = none := by
    refine List.find?_eq_none.mpr fun (x, k) hx earlier => ?_
    obtain ⟨hk, here⟩ := List.getElem?_eq_some_iff.mp (List.mem_zipIdx_iff_getElem?.mp hx)
    have earlier : x ∈ xs.take k := by
      simpa [List.take_append_of_le_length (Nat.le_of_lt hk)] using earlier
    refine List.disjoint_take_drop nodup (Nat.le_refl k) earlier ?_
    rw [List.drop_eq_getElem_cons hk, here]
    exact List.mem_cons_self
  rw [List.zipIdx_append, List.find?_append, first, Option.none_or, List.zipIdx_cons, Nat.zero_add]
  exact List.find?_cons_of_pos (by simpa using again)

/- Marks -/

-- The marks between two walks: nothing is on a path, and what is finished has a top.
structure Settled (marks : Vector Mark f.size) : Prop where
  off    : ∀ i : NodeId, marks[i]? ≠ some .onPath
  rooted : ∀ i : NodeId, marks[i]? = some .rooted → f.Rooted (some i)

theorem settled_replicate : Settled (f := f) (Vector.replicate f.size .unvisited) where
  off i    := by simp [Vector.getElem?_replicate]
  rooted i := by simp [Vector.getElem?_replicate]

-- What is known of the walk from `start` while it is under way. Its path is the way up from there, and
-- has no node twice.
structure Ascent.Follows (start : NodeId) (w : f.Ascent) : Prop where
  onPath  : ∀ i : NodeId, w.marks[i]? = some .onPath ↔ i ∈ w.path
  rooted  : ∀ i : NodeId, w.marks[i]? = some .rooted → f.Rooted (some i)
  leads   : ∀ i ∈ w.path, f.Contains w.current (f.parent (some i))
  passed  : f.lineageWithin w.path.length (some start) = w.path.reverse
  reached : f.climb w.path.length (some start) = w.current
  nodup   : w.path.Nodup

-- How the walk from `start` ends.
inductive Ascent.Outcome (start : NodeId) : Except TreeError (Vector Mark f.size) → Prop
  | top {marks : Vector Mark f.size} :
    Settled marks → f.Rooted (some start) → Outcome start (.ok marks)
  | circle {i : NodeId} :
    f.firstRepeated (some start) = some i → f.Has (some i) → f.Contains (some i) (some start) →
    f.Contains (some i) (f.parent (some i)) → Outcome start (.error (.cycle (some i)))

namespace Ascent

variable {w w' : f.Ascent}

-- All that a turn can do.
theorem turn_cases (w : f.Ascent) :
    (∃ i, ∃ hi : i < f.size, w.current = some i ∧ w.marks[i]? = some .unvisited ∧
      w.turn = .inl ⟨w.marks.set i .onPath, i :: w.path, f.parent (some i)⟩) ∨
    (∃ i, w.current = some i ∧ w.marks[i]? = some .onPath ∧ w.turn = .inr (.error (.cycle (some i)))) ∨
    (¬f.Has w.current ∨ ∃ i, w.current = some i ∧ w.marks[i]? = some .rooted) ∧
      w.turn = .inr (.ok w.settled) := by
  obtain ⟨marks, path, current⟩ := w
  cases current
  case none => exact .inr (.inr ⟨.inl (by simp [Has]), rfl⟩)
  case some i =>
    by_cases hi : i < f.size
    case neg =>
      have outside : ¬f.Has (some i) := fun h => by
        obtain ⟨j, hj, e⟩ := has_iff.mp h
        exact hi (Option.some.inj e ▸ hj)
      exact .inr (.inr ⟨.inl outside, dif_neg hi⟩)
    case pos =>
      have here : marks[i]? = some marks[i] := Vector.getElem?_eq_getElem hi
      cases mark : marks[i]
      case unvisited => exact .inl ⟨i, hi, rfl, mark ▸ here, by simp [turn, hi, mark]⟩
      case onPath    => exact .inr (.inl ⟨i, rfl, mark ▸ here, by simp [turn, hi, mark]⟩)
      case rooted    => exact .inr (.inr ⟨.inr ⟨i, rfl, mark ▸ here⟩, by simp [turn, hi, mark]⟩)

theorem settled_cases {mark : Mark} (h : w.settled[i]? = some mark) :
    mark = .rooted ∧ i ∈ w.path ∨ i ∉ w.path ∧ w.marks[i]? = some mark := by
  obtain ⟨marks, path, current⟩ := w
  induction path generalizing marks
  case nil => exact .inr ⟨List.not_mem_nil, h⟩
  case cons j path ih =>
    obtain ⟨rooted, mem⟩ | ⟨off, same⟩ := ih (marks.setIfInBounds j .rooted) h
    · exact .inl ⟨rooted, List.mem_cons_of_mem j mem⟩
    rw [Vector.getElem?_setIfInBounds] at same
    split at same
    case isTrue hj  => exact .inl ⟨by simp_all, hj ▸ List.mem_cons_self⟩
    case isFalse hj => exact .inr ⟨List.not_mem_cons_of_ne_of_not_mem (Ne.symm hj) off, same⟩

namespace Follows

theorem first {marks : Vector Mark f.size} (settled : Settled marks) (start : NodeId) :
    Follows start ⟨marks, [], some start⟩ where
  onPath i := by simp [settled.off i]
  rooted   := settled.rooted
  leads    := by simp
  passed   := by simp
  reached  := by simp
  nodup    := List.nodup_nil

theorem inside (h : w.Follows start) : ∀ i ∈ w.path, i < f.size := by
  intro i hi
  by_contra outside
  have := (h.onPath i).mpr hi
  simp [outside] at this

-- The walk goes up from a node that it has not seen before.
theorem turn (h : w.Follows start) (more : w.turn = .inl w') : w'.Follows start := by
  obtain ⟨i, hi, here, unvisited, next⟩ | ⟨_, -, -, stop⟩ | ⟨-, stop⟩ := w.turn_cases
  case inr.inl | inr.inr => rw [stop] at more; cases more
  case inl =>
    obtain rfl := Sum.inl.inj (next.symm.trans more)
    have new : i ∉ w.path := fun mem => by
      have := (h.onPath i).mpr mem
      rw [unvisited] at this
      cases this
    refine ⟨fun j => ?onPath, fun j => ?rooted, ?leads, ?passed, ?reached, ?nodup⟩
    case onPath =>
      rw [Vector.getElem?_set, List.mem_cons]
      split
      case isTrue e => simp [e]
      case isFalse e => simp [h.onPath, Ne.symm e]
    case rooted =>
      rw [Vector.getElem?_set]
      split
      case isTrue e => simp
      case isFalse e => exact h.rooted j
    case leads =>
      refine List.forall_mem_cons.mpr ⟨.refl, fun j hj => ?_⟩
      exact (contains_parent f (some i)).trans (here ▸ h.leads j hj)
    case passed =>
      show f.lineageWithin (w.path.length + 1) (some start) = _
      rw [lineageWithin_add, h.passed, h.reached, here, List.reverse_cons]
      simp [lineageWithin]
    case reached =>
      show f.climb (w.path.length + 1) (some start) = _
      rw [climb_succ, h.reached, here]
    case nodup => exact List.nodup_cons.mpr ⟨new, h.nodup⟩

-- At the top all of the path is known to have one.
theorem settled (h : w.Follows start) (rooted : f.Rooted w.current) : Settled w.settled where
  off i last := by
    obtain ⟨e, -⟩ | ⟨off, same⟩ := settled_cases last
    · cases e
    · exact off ((h.onPath i).mp same)
  rooted i last := by
    obtain ⟨-, mem⟩ | ⟨-, same⟩ := settled_cases last
    · exact .up (rooted.trans (h.leads i mem))
    · exact h.rooted i same

theorem firstRepeated (h : w.Follows start) (here : w.current = some i) (again : i ∈ w.path) :
    f.firstRepeated (some start) = some i := by
  have bound := length_le_size h.nodup h.inside
  obtain ⟨n, hn⟩ : ∃ n, f.size + 1 = w.path.length + (n + 1) := ⟨f.size - w.path.length, by omega⟩
  have way : f.lineage (some start) = w.path.reverse ++ i :: f.lineageWithin n (f.parent (some i)) := by
    rw [lineage, hn, lineageWithin_add, h.passed, h.reached, here, lineageWithin]
  rw [Forest.firstRepeated, way,
    find?_repeated (List.nodup_reverse.mpr h.nodup) (List.mem_reverse.mpr again)]
  rfl

-- What the last turn finds.
theorem outcome (h : w.Follows start) {result : Except TreeError (Vector Mark f.size)}
    (stop : w.turn = .inr result) : Outcome start result := by
  have above : f.Contains w.current (some start) := h.reached ▸ contains_climb _ _
  obtain ⟨_, _, -, -, next⟩ | ⟨i, here, onPath, circle⟩ | ⟨top, ok⟩ := w.turn_cases
  case inl => rw [next] at stop; cases stop
  case inr.inl =>
    obtain rfl := Sum.inr.inj (circle.symm.trans stop)
    have again := (h.onPath i).mp onPath
    exact .circle (h.firstRepeated here again) (has_iff.mpr ⟨i, h.inside i again, rfl⟩) (here ▸ above)
      (here ▸ h.leads i again)
  case inr.inr =>
    obtain rfl := Sum.inr.inj (ok.symm.trans stop)
    have rooted : f.Rooted w.current := by
      rcases top with outside | ⟨i, here, marked⟩
      · exact .up (by rw [parent_of_not_has outside]; exact rooted_none)
      · exact here ▸ h.rooted i marked
    exact .top (h.settled rooted) (rooted.trans above)

-- What a walk finds, by induction on its turns.
theorem run (h : w.Follows start) : Outcome start w.run := by
  fun_induction Ascent.run w
  case case1 more ih   => exact ih (h.turn more)
  case case2 stop      => exact h.outcome stop

end Follows

end Ascent

-- A chain without a top comes to some node a second time, which is above itself then.
theorem contains_firstRepeated (h : ¬f.Rooted (some start)) :
    f.Has (f.firstRepeated (some start)) ∧
      f.Contains (f.firstRepeated (some start)) (f.parent (f.firstRepeated (some start))) := by
  have found := (Ascent.Follows.first (settled_replicate (f := f)) start).run
  generalize Ascent.run _ = result at found
  cases found
  case top rooted                 => exact absurd rooted h
  case circle first has _ above => exact first ▸ ⟨has, above⟩

/- The whole check -/

-- What the walks find, without any marks: the first node whose chain is too long to have a top, and of this
-- chain the node that comes a second time.
def checkChains (f : Forest) (starts : List NodeId) : Except TreeError Unit :=
  match starts.find? fun i => (f.climb (f.size + 1) (some i)).isSome with
  | none   => .ok ()
  | some i => .error (.cycle (f.firstRepeated (some i)))

theorem foldlM_run {starts : List NodeId} {marks : Vector Mark f.size} (settled : Settled marks) :
    (starts.foldlM (fun marks start => Ascent.run ⟨marks, [], some start⟩) marks).map (fun _ => ()) =
      f.checkChains starts := by
  induction starts generalizing marks
  case nil => rfl
  case cons start starts ih =>
    have found := (Ascent.Follows.first settled start).run
    rw [List.foldlM_cons, checkChains, List.find?_cons]
    generalize Ascent.run _ = result at found ⊢
    cases found
    case top settled rooted =>
      rw [rooted.climb_succ_size]
      exact ih settled
    case circle i first has below above =>
      have endless : f.climb (f.size + 1) (some start) ≠ none := fun top =>
        ((rooted_of_climb top).above below).not_contains_parent (by simp) above
      rw [Option.isSome_iff_ne_none.mpr endless, ← first]
      rfl

theorem checkAcyclic_eq_checkChains (f : Forest) : f.checkAcyclic = f.checkChains (List.range f.size) :=
  foldlM_run settled_replicate

-- The right-hand side unfolds by computation, which the walks do not.
theorem check_eq_checkChains (f : Forest) :
    f.check = f.checkNodes.bind fun _ => f.checkChains (List.range f.size) := by
  rw [← checkAcyclic_eq_checkChains]
  rfl

-- A chain that the check stops at has no top.
theorem not_rooted_of_find? {starts : List NodeId}
    (h : (starts.find? fun i => (f.climb (f.size + 1) (some i)).isSome) = some i) : ¬f.Rooted (some i) := by
  intro rooted
  have long := List.find?_some (p := fun i => (f.climb (f.size + 1) (some i)).isSome) h
  simp [rooted.climb_succ_size] at long

theorem checkAcyclic_ok_iff : f.checkAcyclic = .ok () ↔ ∀ i < f.size, f.Rooted (some i) := by
  rw [checkAcyclic_eq_checkChains, checkChains]
  split
  case h_1 none => simpa [climb_eq_none_iff] using none
  case h_2 i found =>
    have inside := List.mem_range.mp (List.mem_of_find?_eq_some found)
    exact iff_of_false (by simp) fun rooted => not_rooted_of_find? found (rooted i inside)

theorem checkAcyclic_error {e : TreeError} (h : f.checkAcyclic = .error e) :
    ∃ r, e = .cycle r ∧ f.Has r ∧ f.Contains r (f.parent r) := by
  rw [checkAcyclic_eq_checkChains, checkChains] at h
  split at h
  case h_1 => cases h
  case h_2 i found =>
    cases h
    exact ⟨_, rfl, contains_firstRepeated (not_rooted_of_find? found)⟩

end ClassLift.Forest
