import ClassLift.Proofs.Tree.Linked

/-!
What the errors of the check say of a forest. All of them are true but one: a child that another list
has named before is reported as if it were twice in the same list.
-/

namespace ClassLift

variable {f : Forest} {e : TreeError} {n : Node} {i : NodeId} {child parent : Ref} {marks marks' : Array Bool}

-- The forest is as the message of the error says. The errors of edits say nothing of a forest alone.
def TreeError.Holds (f : Forest) : TreeError → Prop
  | invalidIndex r => ¬f.Has r ∧ ∃ p, r ∈ f.children p ∨ r ≠ none ∧ f.parent p = r
  | duplicateChild child parent => 2 ≤ (f.children parent).count child
  | notAChild child parent => Xor (child ∈ f.children parent) (f.Has child ∧ f.parent child = parent)
  | danglingData node kind data => ∃ n, f.node? node = some n ∧ n.kind = kind ∧
    ((n.data = some data ∧ ∃ size, f.poolSize? kind = some size ∧ size ≤ data) ∨
      (n.doc = some data ∧ f.docs.size ≤ data))
  | cycle node => f.Has node ∧ f.Contains node (f.parent node)
  | alreadyAttached .. | noParent .. | unexpectedKind .. | malformed => False

namespace Forest

-- The child is listed here although it has another parent, an earlier node, which lists it as well.
structure Shares (f : Forest) (child parent : Ref) : Prop where
  listed  : child ∈ f.children parent
  own     : child ∈ f.children (f.parent child)
  earlier : ∃ i j, f.parent child = some i ∧ parent = some j ∧ i < j

theorem Shares.notAChild (h : f.Shares child parent) : (TreeError.notAChild child parent).Holds f := by
  refine .inl ⟨h.listed, fun ⟨_, e⟩ => ?_⟩
  obtain ⟨i, j, hi, hj, hij⟩ := h.earlier
  rw [hi, hj, Option.some.injEq] at e
  exact Nat.ne_of_lt hij e

-- The error holds, or it is about a child of two nodes.
def Explains (f : Forest) (e : TreeError) : Prop :=
  e.Holds f ∨ ∃ child parent, e = .duplicateChild child parent ∧ f.Shares child parent

/- Marks -/

-- The nodes that are marked are the children of nodes before this one.
def Marked (f : Forest) (i : NodeId) (marks : Array Bool) : Prop :=
  ∀ c : NodeId, marks[c]?.getD false → ∃ j < i, some c ∈ f.children (some j) ∧ f.parent (some c) = some j

theorem marked_none : f.Marked 0 (Array.replicate f.size false) := by
  intro c hc
  simp only [Array.getElem?_replicate] at hc
  split at hc <;> simp at hc

theorem getD_of_marked {c d : NodeId} (h : (marks.setIfInBounds d true)[c]?.getD false) :
    c = d ∨ marks[c]?.getD false := by
  by_cases e : d = c
  case pos => exact .inl e.symm
  case neg => exact .inr (by simpa [Array.getElem?_setIfInBounds, e] using h)

theorem mem_of_checkChildren {cs : List Ref} (h : f.checkChildren i cs marks = .ok marks') {c : NodeId}
    (hc : marks'[c]?.getD false) : marks[c]?.getD false ∨ some c ∈ cs ∧ f.parent (some c) = some i := by
  fun_induction checkChildren f i cs marks
  case case1 =>
    cases h
    exact .inl hc
  case case6 d cs marks m hm _ hp ih =>
    obtain hc | ⟨hc, parent⟩ := ih h
    · obtain rfl | hc := getD_of_marked hc
      · exact .inr ⟨List.mem_cons_self, by simpa [Forest.parent, hm] using hp⟩
      · exact .inl hc
    · exact .inr ⟨List.mem_cons_of_mem _ hc, parent⟩
  all_goals cases h

theorem Marked.checkChildren (before : f.Marked i marks) (hn : f.nodes[i]? = some n)
    (h : f.checkChildren i n.children marks = .ok marks') : f.Marked (i + 1) marks' := by
  intro c hc
  obtain hc | ⟨hc, parent⟩ := mem_of_checkChildren h hc
  · obtain ⟨j, hj, hc⟩ := before c hc
    exact ⟨j, Nat.lt_succ_of_lt hj, hc⟩
  · exact ⟨i, Nat.lt_succ_self i, by rwa [children_of_node? (r := some i) hn], parent⟩

/- One node -/

-- Of the list of a node some children have been passed already.
theorem explains_checkChildren {front cs : List Ref} (list : f.children (some i) = front ++ cs)
    (before : ∀ c : NodeId, marks[c]?.getD false →
      (∃ j < i, some c ∈ f.children (some j) ∧ f.parent (some c) = some j) ∨ some c ∈ front)
    (h : f.checkChildren i cs marks = .error e) : f.Explains e := by
  fun_induction checkChildren f i cs marks generalizing front
  case case1 => cases h
  case case2 =>
    cases h
    exact .inl ⟨by simp [Has], some i, .inl (by simp [list])⟩
  case case3 c cs missing =>
    cases h
    exact .inl ⟨by simp [Has, missing], some i, .inl (by simp [list])⟩
  case case4 c cs marks m hm again =>
    cases h
    have listed : some c ∈ f.children (some i) := by simp [list]
    obtain ⟨j, hj, hc, parent⟩ | hc := before c again
    · exact .inr ⟨_, _, rfl, listed, parent ▸ hc, j, i, parent, rfl, hj⟩
    · have first := List.count_pos_iff.mpr hc
      refine .inl ?_
      simp only [TreeError.Holds, list, List.count_append, List.count_cons_self]
      omega
  case case5 c cs marks m hm _ other =>
    cases h
    refine .inl (.inl ⟨by simp [list], ?_⟩)
    rintro ⟨_, own⟩
    exact other (by simpa [Forest.parent, hm] using own)
  case case6 c cs marks m hm _ _ ih =>
    have list : f.children (some i) = (front ++ [some c]) ++ cs := by simp [list]
    refine ih list (fun d hd => ?_) h
    obtain rfl | hd := getD_of_marked hd
    · exact .inr (by simp)
    · exact (before d hd).imp id (List.mem_append_left _)

theorem holds_checkParent (hn : f.nodes[i]? = some n) (h : f.checkParent i n = .error e) : e.Holds f := by
  have own : f.parent (some i) = n.parent := by simp [Forest.parent, hn]
  fun_cases checkParent f i n
  case case1 none => simp [checkParent, none] at h
  case case2 p hp missing =>
    simp only [checkParent, hp, missing] at h
    cases h
    exact ⟨by simp [Has, missing], some i, .inr ⟨by simp, own.trans hp⟩⟩
  case case3 p hp m hm listed => simp [checkParent, hp, hm, listed] at h
  case case4 p hp m hm unlisted =>
    simp only [checkParent, hp, hm, if_neg unlisted] at h
    cases h
    refine .inr ⟨⟨by simp [Has, hn], own.trans hp⟩, ?_⟩
    rwa [children_of_node? (r := some p) hm]

theorem holds_checkData (hn : f.nodes[i]? = some n) (h : f.checkData i n = .error e) : e.Holds f := by
  fun_cases checkData f i n
  case case1 data size hs hd inside => simp [checkData, hd, hs, inside] at h
  case case2 data size hs hd outside =>
    simp only [checkData, hd, hs, if_neg outside] at h
    cases h
    exact ⟨n, hn, rfl, .inl ⟨hd, size, hs, Nat.le_of_not_lt outside⟩⟩
  case case3 => simp_all [checkData]

theorem holds_checkDoc (hn : f.nodes[i]? = some n) (h : f.checkDoc i n = .error e) : e.Holds f := by
  fun_cases checkDoc f i n
  case case1 none => simp [checkDoc, none] at h
  case case2 doc hd inside => simp [checkDoc, hd, inside] at h
  case case3 doc hd outside =>
    simp only [checkDoc, hd, if_neg outside] at h
    cases h
    exact ⟨n, hn, rfl, .inr ⟨hd, Nat.le_of_not_lt outside⟩⟩

-- A node either passes, with its children marked after it, or the error explains why it does not.
theorem checkNode_cases (hn : f.nodes[i]? = some n) (before : f.Marked i marks) :
    (∃ marks', f.checkNode marks i n = .ok marks' ∧ f.Marked (i + 1) marks') ∨
      ∃ e, f.checkNode marks i n = .error e ∧ f.Explains e := by
  cases children : f.checkChildren i n.children marks
  case error e =>
    refine .inr ⟨e, by simp [checkNode, children, bind, Except.bind], ?_⟩
    have list : f.children (some i) = [] ++ n.children := children_of_node? (r := some i) hn
    exact explains_checkChildren list (fun c hc => .inl (before c hc)) children
  case ok marks' =>
    cases parent : f.checkParent i n
    case error e =>
      exact .inr ⟨e, by simp [checkNode, children, parent, bind, Except.bind], .inl (holds_checkParent hn parent)⟩
    case ok =>
      cases data : f.checkData i n
      case error e =>
        exact .inr ⟨e, by simp [checkNode, children, parent, data, bind, Except.bind],
          .inl (holds_checkData hn data)⟩
      case ok =>
        cases doc : f.checkDoc i n
        case error e =>
          exact .inr ⟨e, by simp [checkNode, children, parent, data, doc, bind, Except.bind],
            .inl (holds_checkDoc hn doc)⟩
        case ok =>
          refine .inl ⟨marks', ?_, before.checkChildren hn children⟩
          simp [checkNode, children, parent, data, doc, bind, Except.bind, pure, Except.pure]

/- All nodes -/

theorem explains_foldlM {ns : List Node} (here : ∀ k, ns[k]? = f.nodes[i + k]?) (before : f.Marked i marks)
    (h : (ns.zipIdx i).foldlM (fun marks (n, i) => f.checkNode marks i n) marks = .error e) :
    f.Explains e := by
  induction ns generalizing i marks
  case nil => simp [pure, Except.pure] at h
  case cons n ns ih =>
    have hn : f.nodes[i]? = some n := (here 0).symm
    rw [List.zipIdx_cons, List.foldlM_cons] at h
    obtain ⟨marks', ok, after⟩ | ⟨e', error, explained⟩ := checkNode_cases hn before
    · simp only [ok, bind, Except.bind] at h
      refine ih (fun k => ?_) after h
      have := here (k + 1)
      rwa [List.getElem?_cons_succ, ← Nat.add_assoc, Nat.add_right_comm] at this
    · simp only [error, bind, Except.bind] at h
      cases h
      exact explained

-- An error of the check is true of the forest, or it says that a list names a child more than once where
-- that child is in this list and in an earlier one, that of its parent. In the second case the true error
-- is that the child is not one of this node.
theorem check_error (f : Forest) (e : TreeError) (h : f.check = .error e) :
    e.Holds f ∨ ∃ child parent, e = .duplicateChild child parent ∧ f.Shares child parent ∧
      (TreeError.notAChild child parent).Holds f := by
  have explained : f.Explains e := by
    unfold check at h
    cases nodes : f.checkNodes
    case error e' =>
      simp only [nodes, bind, Except.bind] at h
      cases h
      exact explains_foldlM (fun k => by simp) marked_none nodes
    case ok marks =>
      simp only [nodes, bind, Except.bind] at h
      obtain ⟨r, rfl, circle⟩ := checkAcyclic_error h
      exact .inl circle
  refine explained.imp id ?_
  rintro ⟨child, parent, rfl, shares⟩
  exact ⟨child, parent, rfl, shares, shares.notAChild⟩

-- The node 2 is the child of the node 0 and listed once by each of the others.
def claimed : Forest where
  nodes := #[
    { kind := .block, children := [some 2] },
    { kind := .block, children := [some 2] },
    { kind := .empty, parent := some 0 }]

theorem claimed_check : claimed.check = .error (.duplicateChild (some 2) (some 1)) :=
  (check_eq_checkChains _).trans rfl

theorem check_error_claimed : claimed.check = .error (.duplicateChild (some 2) (some 1)) ∧
    claimed.Shares (some 2) (some 1) := by
  have found := claimed_check
  have once : ¬2 ≤ (claimed.children (some 1)).count (some 2) := by decide
  obtain ⟨child, parent, e, shares, -⟩ := (check_error claimed _ found).resolve_left once
  cases e
  exact ⟨found, shares⟩

-- The list that the error is about names the child once.
theorem claimed_once : claimed.check = .error (.duplicateChild (some 2) (some 1)) ∧
    ¬(TreeError.duplicateChild (some 2) (some 1)).Holds claimed := by
  refine ⟨claimed_check, ?_⟩
  show ¬2 ≤ (claimed.children (some 1)).count (some 2)
  decide

end Forest

end ClassLift
