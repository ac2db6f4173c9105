import ClassLift.Proofs.Tree.Postorder

/-!
What the check of a forest accepts, told from what the nodes list and refer to. A cycle is only found
where nothing else is wrong.
-/

namespace ClassLift.Forest

variable {f : Forest} {r c p : Ref} {i j : NodeId} {n : Node}

-- Whatever is listed as a child, node after node.
def listed (f : Forest) : List Ref :=
  f.nodes.toList.flatMap (·.children)

-- All that a node refers to is there, and both ends of every edge agree.
structure Linked (f : Forest) : Prop where
  children : ∀ c ∈ f.listed, f.Has c
  once     : f.listed.Nodup
  below    : ∀ {r c}, c ∈ f.children r → f.parent c = r
  parents  : ∀ {r}, f.parent r ≠ none → f.Has (f.parent r)
  above    : ∀ {r}, f.parent r ≠ none → r ∈ f.children (f.parent r)
  files    : ∀ {r n d}, f.node? r = some n → n.kind = .script → n.data = some d → d < f.files.size
  texts    : ∀ {r n d}, f.node? r = some n → n.kind.hasText → n.data = some d → d < f.texts.size
  docs     : ∀ {r n d}, f.node? r = some n → n.doc = some d → d < f.docs.size

-- The parent links lead up to a node without a parent.
def HasTop (f : Forest) (r : Ref) : Prop :=
  ∃ top, f.Contains top r ∧ f.Has top ∧ f.parent top = none

structure WellFormed (f : Forest) : Prop extends Linked f where
  tops : ∀ {r}, f.Has r → f.HasTop r

/- Lists of children -/

theorem children_of_node? (h : f.node? r = some n) : f.children r = n.children := by
  simp [children, h]

theorem mem_listed : c ∈ f.listed ↔ ∃ r, c ∈ f.children r := by
  simp only [listed, List.mem_flatMap, Array.mem_toList_iff, Array.mem_iff_getElem?]
  constructor
  case mp =>
    rintro ⟨n, ⟨i, hn⟩, hc⟩
    exact ⟨some i, by rwa [children_of_node? (r := some i) hn]⟩
  case mpr =>
    rintro ⟨r, hc⟩
    obtain ⟨i, _, rfl⟩ := has_iff.mp (has_of_mem_children hc)
    obtain ⟨n, hn⟩ := Option.isSome_iff_exists.mp (has_of_mem_children hc)
    exact ⟨n, ⟨i, hn⟩, by rwa [children_of_node? hn] at hc⟩

-- If no list repeats a node, and no two lists name the same one, then no node is listed twice.
theorem nodup_listed : f.listed.Nodup ↔
    (∀ r, (f.children r).Nodup) ∧ ∀ {r p c}, c ∈ f.children r → c ∈ f.children p → r = p := by
  have at_index {i : NodeId} (h : i < f.nodes.toList.length) :
      f.children (some i) = f.nodes.toList[i].children :=
    children_of_node? (by simp)
  rw [listed, List.nodup_flatMap, List.pairwise_iff_getElem]
  constructor
  case mp =>
    rintro ⟨nodup, apart⟩
    refine ⟨fun r => ?_, fun {r p c} hr hp => ?_⟩
    · by_cases hr : f.Has r
      case neg => simp [children_of_not_has hr]
      case pos =>
        obtain ⟨n, hn⟩ := Option.isSome_iff_exists.mp hr
        obtain ⟨i, _, rfl⟩ := has_iff.mp hr
        rw [children_of_node? hn]
        exact nodup n (Array.mem_toList_iff.mpr (Array.mem_iff_getElem?.mpr ⟨i, hn⟩))
    · obtain ⟨i, hi, rfl⟩ := has_iff.mp (has_of_mem_children hr)
      obtain ⟨j, hj, rfl⟩ := has_iff.mp (has_of_mem_children hp)
      rw [at_index hi] at hr
      rw [at_index hj] at hp
      rcases Nat.lt_trichotomy i j with h | rfl | h
      · exact absurd hp (apart i j hi hj h hr)
      · rfl
      · exact absurd hr (apart j i hj hi h hp)
  case mpr =>
    rintro ⟨nodup, apart⟩
    refine ⟨fun n hn => ?_, fun i j hi hj h c hc hd => ?_⟩
    · obtain ⟨i, hi, rfl⟩ := List.mem_iff_getElem.mp hn
      exact at_index hi ▸ nodup (some i)
    · have hc : c ∈ f.children (some i) := at_index hi ▸ hc
      have hd : c ∈ f.children (some j) := at_index hj ▸ hd
      exact Nat.ne_of_lt h (Option.some.inj (apart hc hd))

/- Chains upwards -/

theorem HasTop.rooted (h : f.HasTop r) : f.Rooted r := by
  obtain ⟨top, hc, -, ht⟩ := h
  exact (Contains.child .refl ht).trans hc

namespace Linked

theorem hasTop (l : f.Linked) (hr : f.Has r) (h : f.Rooted r) : f.HasTop r := by
  induction h using Rooted.downward
  case top => exact absurd rfl hr.ne_none
  case below r h _ ih =>
    by_cases hp : f.parent r = none
    case pos => exact ⟨r, .refl, hr, hp⟩
    case neg =>
      obtain ⟨top, hc, ht⟩ := ih (l.parents hp)
      exact ⟨top, .up hc, ht⟩

theorem has_above (l : f.Linked) {a : Ref} (h : f.Contains a r) (hr : f.Has r) (ha : a ≠ none) :
    f.Has a := by
  induction h
  case refl => exact hr
  case up r h ih => exact ih (l.parents (h.ne_none ha))

theorem valid (l : f.Linked) (rooted : ∀ r, f.Rooted r) : f.Valid := by
  have nodup := nodup_listed.mp l.once
  refine ⟨⟨fun h => ⟨l.below h, ?some⟩, ?child⟩, nodup.left, rooted, ?data, ?doc⟩
  case some => exact (has_of_mem_children h).ne_none
  case child =>
    rintro ⟨rfl, hp⟩
    exact l.above hp
  case data =>
    intro r m d s hm hd hs
    obtain ⟨n, hn, rfl⟩ := Option.map_eq_some_iff.mp hm
    simp only [poolSize?] at hs
    split at hs
    case isTrue hk => exact Option.some.inj hs ▸ l.files hn hk hd
    case isFalse =>
      split at hs
      case isTrue hk => exact Option.some.inj hs ▸ l.texts hn hk hd
      case isFalse => cases hs
  case doc =>
    intro r d hd
    obtain ⟨n, hn, hd⟩ := Option.bind_eq_some_iff.mp hd
    exact l.docs hn hd

end Linked

theorem Valid.linked (v : f.Valid) : f.Linked where
  children c hc := by
    obtain ⟨r, hc⟩ := mem_listed.mp hc
    exact v.has_child hc
  once := nodup_listed.mpr
    ⟨v.nodup, fun hr hp => (v.parent_eq hr).symm.trans (v.parent_eq hp)⟩
  below   := v.parent_eq
  parents := v.has_parent
  above   := v.mem_parent
  files {r n d} hn hk hd := by
    have label : f.label? r = some n.bare := congrArg (·.map Node.bare) hn
    exact v.data label hd (by simp [poolSize?, Node.bare, hk])
  texts {r n d} hn hk hd := by
    have label : f.label? r = some n.bare := congrArg (·.map Node.bare) hn
    have other : n.kind ≠ .script := fun e => by simp [e, Kind.hasText] at hk
    exact v.data label hd (by simp [poolSize?, Node.bare, hk, other])
  docs hn hd := v.doc (by rw [docIndex?, hn]; exact hd)

theorem wellFormed_iff : f.WellFormed ↔ f.Valid where
  mp w := w.valid fun r => by
    by_cases hr : f.Has r
    case pos => exact (w.tops hr).rooted
    case neg => exact .up <| by rw [parent_of_not_has hr]; exact rooted_none
  mpr v := { v.linked with tops := fun hr => v.linked.hasTop hr (v.rooted _) }

/- Errors of the check -/

theorem linked_of_checkNodes {marks : Array Bool} (h : f.checkNodes = .ok marks) : f.Linked := by
  have checked {r : Ref} {n : Node} (hn : f.node? r = some n) : ∃ i, r = some i ∧ f.Checked i n := by
    obtain ⟨i, _, rfl⟩ := has_iff.mp (Option.isSome_iff_exists.mpr ⟨n, hn⟩)
    exact ⟨i, rfl, checked_of_checkNodes h hn⟩
  have below {r c : Ref} (hc : c ∈ f.children r) : f.parent c = r := by
    obtain ⟨n, hn⟩ := Option.isSome_iff_exists.mp (has_of_mem_children hc)
    obtain ⟨i, rfl, k⟩ := checked hn
    exact k.parents c (children_of_node? hn ▸ hc)
  have above {r : Ref} (hp : f.parent r ≠ none) : r ∈ f.children (f.parent r) := by
    obtain ⟨n, hn⟩ := Option.isSome_iff_exists.mp (has_of_parent_ne_none hp)
    obtain ⟨i, rfl, k⟩ := checked hn
    have e : f.parent (some i) = n.parent := by rw [parent, hn]; rfl
    exact e ▸ k.parent (e ▸ hp)
  refine ⟨fun c hc => ?children, nodup_listed.mpr ⟨fun r => ?nodup, ?apart⟩, below,
    fun hp => has_of_mem_children (above hp), above, ?files, ?texts, ?docs⟩
  case children =>
    obtain ⟨r, hc⟩ := mem_listed.mp hc
    exact has_of_parent_ne_none (below hc ▸ (has_of_mem_children hc).ne_none)
  case nodup =>
    by_cases hr : f.Has r
    case neg => simp [children_of_not_has hr]
    case pos =>
      obtain ⟨n, hn⟩ := Option.isSome_iff_exists.mp hr
      obtain ⟨i, rfl, k⟩ := checked hn
      exact children_of_node? hn ▸ k.nodup
  case apart => exact fun hr hp => (below hr).symm.trans (below hp)
  case files =>
    intro r n d hn hk hd
    obtain ⟨i, rfl, k⟩ := checked hn
    exact k.data hd (by simp [poolSize?, hk])
  case texts =>
    intro r n d hn hk hd
    obtain ⟨i, rfl, k⟩ := checked hn
    have other : n.kind ≠ .script := fun e => by simp [e, Kind.hasText] at hk
    exact k.data hd (by simp [poolSize?, hk, other])
  case docs =>
    intro r n d hn hd
    obtain ⟨i, rfl, k⟩ := checked hn
    exact k.doc hd

theorem foldlM_ne_error {α β ε : Type} {step : β → α → Except ε β} {e : ε}
    (hs : ∀ b x, step b x ≠ .error e) {xs : List α} {b : β} : xs.foldlM step b ≠ .error e := by
  induction xs generalizing b
  case nil => simp [pure, Except.pure]
  case cons x xs ih =>
    rw [List.foldlM_cons]
    cases hx : step b x
    case error e' =>
      simp only [bind, Except.bind]
      exact hx ▸ hs b x
    case ok => exact ih

theorem checkChildren_ne_cycle {cs : List Ref} {marks : Array Bool} :
    f.checkChildren i cs marks ≠ .error (.cycle r) := by
  fun_induction checkChildren f i cs marks <;> simp_all

-- The edges and the data are checked without a look at the chains upwards.
theorem checkNodes_ne_cycle : f.checkNodes ≠ .error (.cycle r) := by
  refine foldlM_ne_error fun marks (n, i) h => ?_
  simp only [checkNode, bind, Except.bind, pure, Except.pure] at h
  split at h
  case h_1 hc =>
    cases h
    exact checkChildren_ne_cycle hc
  case h_2 =>
    split at h
    case h_1 hp =>
      cases h
      revert hp
      fun_cases checkParent f i n <;> simp
    case h_2 =>
      split at h
      case h_1 hd =>
        cases h
        revert hd
        fun_cases checkData f i n <;> simp
      case h_2 =>
        split at h
        case h_1 hd =>
          cases h
          revert hd
          fun_cases checkDoc f i n <;> simp
        case h_2 => cases h

/- The whole check -/

-- The check accepts a forest exactly if it is well formed. If it finds a cycle, then all but the chains
-- upwards is as it should be, and the node that it names lies above itself.
theorem check_exact (f : Forest) :
    (f.check = .ok () ↔ f.WellFormed) ∧
    ∀ r, f.check = .error (.cycle r) → f.Linked ∧ f.Has r ∧ f.Contains r (f.parent r) := by
  refine ⟨⟨fun h => wellFormed_iff.mpr (valid_of_check h), fun w => check_of_valid (wellFormed_iff.mp w)⟩,
    fun r h => ?_⟩
  unfold check at h
  cases hn : f.checkNodes
  case error e =>
    simp only [hn, bind, Except.bind] at h
    cases h
    exact absurd hn checkNodes_ne_cycle
  case ok marks =>
    simp only [hn, bind, Except.bind] at h
    obtain ⟨r', e, circle⟩ := checkAcyclic_error h
    cases e
    exact ⟨linked_of_checkNodes hn, circle⟩

-- The chain upwards from the node 1 leads into a circle that the node is not in.
def looped : Forest where
  nodes := #[
    { kind := .root },
    { kind := .returnStatement, parent := some 2 },
    { kind := .block, parent := some 3, children := [some 1, some 3] },
    { kind := .block, parent := some 2, children := [some 2] }]

theorem check_exact_looped : looped.check = .error (.cycle (some 2)) ∧ looped.Linked ∧
    looped.Contains (some 2) (looped.parent (some 2)) := by
  have found : looped.check = .error (.cycle (some 2)) := (check_eq_checkChains _).trans rfl
  obtain ⟨linked, -, above⟩ := (check_exact looped).right (some 2) found
  exact ⟨found, linked, above⟩

end ClassLift.Forest
