import ClassLift.Proofs.Tree.Marks

/-!
Forests that are what they seem: both ends of every edge agree, no node lies above itself, and the
pools have what the nodes refer to. The check of a forest accepts no others.
-/

namespace ClassLift.Forest

variable {f : Forest} {a r p : Ref}

structure Valid (f : Forest) : Prop where
  mem_children : ∀ {r p}, r ∈ f.children p ↔ f.parent r = p ∧ p ≠ none
  nodup        : ∀ p, (f.children p).Nodup
  rooted       : ∀ r, f.Rooted r
  data         : ∀ {r n d s},
    f.label? r = some n → n.data = some d → f.poolSize? n.kind = some s → d < s
  doc          : ∀ {r d}, f.docIndex? r = some d → d < f.docs.size

namespace Valid

theorem parent_eq (v : f.Valid) (h : r ∈ f.children p) : f.parent r = p :=
  v.mem_children.mp h |>.left

theorem mem_parent (v : f.Valid) (h : f.parent r ≠ none) : r ∈ f.children (f.parent r) :=
  v.mem_children.mpr ⟨rfl, h⟩

theorem has_child (v : f.Valid) (h : r ∈ f.children p) : f.Has r :=
  have ⟨hp, hn⟩ := v.mem_children.mp h
  has_of_parent_ne_none (hp ▸ hn)

theorem has_parent (v : f.Valid) (h : f.parent r ≠ none) : f.Has (f.parent r) :=
  has_of_mem_children (v.mem_parent h)

theorem contains_child (v : f.Valid) (h : r ∈ f.children p) : f.Contains p r :=
  v.parent_eq h ▸ contains_parent f r

theorem not_contains_parent (v : f.Valid) (h : r ≠ none) : ¬f.Contains r (f.parent r) :=
  (v.rooted r).not_contains_parent h

theorem parent_ne (v : f.Valid) (h : r ≠ none) : f.parent r ≠ r := fun he =>
  v.not_contains_parent h (he.symm ▸ .refl)

theorem antisymm (v : f.Valid) (hr : r ≠ none) (h₁ : f.Contains a r) (h₂ : f.Contains r a) :
    a = r :=
  (v.rooted r).antisymm hr h₁ h₂

-- A child of a node contains nothing above it.
theorem not_contains_of_child (v : f.Valid) (h : r ∈ f.children p) : ¬f.Contains r p := by
  have hp := v.parent_eq h
  exact hp ▸ v.not_contains_parent (v.has_child h).ne_none

-- Whatever lies strictly below a node lies below one of its children.
theorem exists_child (v : f.Valid) (ha : a ≠ none) (h : f.Contains a r) (hn : r ≠ a) :
    ∃ c ∈ f.children a, f.Contains c r := by
  induction h
  case refl => exact absurd rfl hn
  case up r h ih =>
    by_cases hp : f.parent r = a
    case pos => exact ⟨r, v.mem_children.mpr ⟨hp, ha⟩, .refl⟩
    case neg =>
      obtain ⟨c, hc, hr⟩ := ih hp
      exact ⟨c, hc, .up hr⟩

-- The subtrees of two children of a node have nothing in common.
theorem child_unique (v : f.Valid) {c d : Ref} (hc : c ∈ f.children p) (hd : d ∈ f.children p)
    (hcr : f.Contains c r) (hdr : f.Contains d r) : c = d := by
  have not_below {c d : Ref} (hc : c ∈ f.children p) (hd : d ∈ f.children p) (h : f.Contains c d) :
      c = d := by
    by_contra hn
    have := v.parent_eq hd ▸ h.parent_of_ne (Ne.symm hn)
    exact v.not_contains_of_child hc this
  rcases hcr.linear hdr with h | h
  · exact not_below hc hd h
  · exact (not_below hd hc h).symm

end Valid

/- Chains of bounded length -/

namespace Valid

theorem has_above (v : f.Valid) (h : f.Contains a r) (hr : f.Has r) (ha : a ≠ none) : f.Has a := by
  induction h
  case refl => exact hr
  case up r h ih => exact ih <| v.has_parent (h.ne_none ha)

theorem climb_succ_size (v : f.Valid) (r : Ref) : f.climb (f.size + 1) r = none :=
  (v.rooted r).climb_succ_size

theorem mem_lineage (v : f.Valid) {i : NodeId} : i ∈ f.lineage r ↔ f.Contains (some i) r where
  mp  := mem_lineageWithin
  mpr := mem_lineageWithin_of_contains (v.climb_succ_size r)

theorem isWithin_iff (v : f.Valid) (ha : a ≠ none) : f.isWithin r a ↔ f.Contains a r := by
  obtain ⟨i, rfl⟩ := Option.ne_none_iff_exists'.mp ha
  simp [isWithin, v.mem_lineage]

end Valid

/- The check -/

theorem foldlM_ok {α β ε : Type} {step : β → α → Except ε β} (inv : β → Prop)
    (hs : ∀ {b x b'}, inv b → step b x = .ok b' → inv b') {xs : List α} {b b' : β}
    (hb : inv b) (h : xs.foldlM step b = .ok b') :
    ∀ x ∈ xs, ∃ c c', inv c ∧ step c x = .ok c' := by
  induction xs generalizing b
  case nil => simp
  case cons x xs ih =>
    rw [List.foldlM_cons] at h
    cases hx : step b x
    case error e => simp [hx, bind, Except.bind] at h
    case ok c =>
      simp only [hx, bind, Except.bind] at h
      intro y hy
      cases hy
      case head => exact ⟨b, c, hb, hx⟩
      case tail hy => exact ih (hs hb hx) h y hy

-- The nodes that a list has named are marked, and none of them is named again.
theorem checkChildren_ok {i : NodeId} {cs : List Ref} {listed listed' : Array Bool}
    (hl : listed.size = f.size) (h : f.checkChildren i cs listed = .ok listed') :
    listed'.size = f.size ∧ cs.Nodup ∧ (∀ c ∈ cs, f.parent c = some i) ∧
      ∀ c, some c ∈ cs → listed[c]?.getD false = false := by
  induction cs generalizing listed
  case nil => simp_all [checkChildren]
  case cons c cs ih =>
    cases c
    case none => simp [checkChildren] at h
    case some c =>
      simp only [checkChildren] at h
      split at h
      case h_1 => cases h
      case h_2 n hn =>
        split at h
        case isTrue => cases h
        case isFalse hc =>
          split at h
          case isTrue => cases h
          case isFalse hp =>
            have hsize : c < listed.size := by
              rw [hl]
              exact Array.getElem?_eq_some_iff.mp hn |>.1
            have ⟨h₁, h₂, h₃, h₄⟩ := ih (by simpa using hl) h
            have hnot : some c ∉ cs := fun hm => by
              simpa [Array.getElem?_setIfInBounds, hsize] using h₄ c hm
            refine ⟨h₁, List.nodup_cons.mpr ⟨hnot, h₂⟩, ?parents, ?marks⟩
            case parents =>
              have : f.parent (some c) = some i := by simpa [parent, hn] using hp
              simpa [this] using h₃
            case marks =>
              intro d hd
              by_cases hdc : d = c
              case pos => simpa [hdc] using hc
              case neg =>
                have hd : some d ∈ cs := by simpa [hdc] using hd
                simpa [Array.getElem?_setIfInBounds, Ne.symm hdc] using h₄ d hd

-- What the check says of one node.
structure Checked (f : Forest) (i : NodeId) (n : Node) : Prop where
  nodup   : n.children.Nodup
  parents : ∀ c ∈ n.children, f.parent c = some i
  parent  : n.parent ≠ none → some i ∈ f.children n.parent
  data    : ∀ {d s}, n.data = some d → f.poolSize? n.kind = some s → d < s
  doc     : ∀ {d}, n.doc = some d → d < f.docs.size

theorem checkParent_ok {i : NodeId} {n : Node} (h : f.checkParent i n = .ok ()) :
    n.parent ≠ none → some i ∈ f.children n.parent := by
  intro hp
  obtain ⟨p, hp⟩ := Option.ne_none_iff_exists'.mp hp
  simp only [checkParent, hp] at h
  split at h
  case h_1 => cases h
  case h_2 m hm =>
    split at h
    case isTrue hi => simpa [children, hp, hm] using hi
    case isFalse => cases h

theorem checkData_ok {i : NodeId} {n : Node} (h : f.checkData i n = .ok ()) {d s : Nat}
    (hd : n.data = some d) (hs : f.poolSize? n.kind = some s) : d < s := by
  simp only [checkData, hd, hs] at h
  split at h
  case isTrue hlt => exact hlt
  case isFalse => cases h

theorem checkDoc_ok {i : NodeId} {n : Node} (h : f.checkDoc i n = .ok ()) {d : Nat}
    (hd : n.doc = some d) : d < f.docs.size := by
  simp only [checkDoc, hd] at h
  split at h
  case isTrue hlt => exact hlt
  case isFalse => cases h

theorem checkNode_ok {i : NodeId} {n : Node} {listed listed' : Array Bool}
    (hl : listed.size = f.size) (h : f.checkNode listed i n = .ok listed') :
    listed'.size = f.size ∧ f.Checked i n := by
  simp only [checkNode, bind, Except.bind, pure, Except.pure] at h
  split at h
  case h_1 => cases h
  case h_2 hc =>
    split at h
    case h_1 => cases h
    case h_2 hp =>
      split at h
      case h_1 => cases h
      case h_2 hd =>
        split at h
        case h_1 => cases h
        case h_2 hj =>
          obtain ⟨hs, hn, hcs, -⟩ := checkChildren_ok hl hc
          cases h
          exact ⟨hs, hn, hcs, checkParent_ok hp, checkData_ok hd, checkDoc_ok hj⟩

theorem checked_of_checkNodes {listed : Array Bool} (h : f.checkNodes = .ok listed) {i : NodeId}
    {n : Node} (hn : f.nodes[i]? = some n) : f.Checked i n := by
  have hm : (n, i) ∈ f.nodes.toList.zipIdx := by
    simpa [List.mem_zipIdx_iff_getElem?] using hn
  have ⟨_, _, hl, hc⟩ := foldlM_ok (fun listed => listed.size = f.size)
    (fun hl hc => checkNode_ok hl hc |>.left) (by simp) h (n, i) hm
  exact checkNode_ok hl hc |>.right

theorem valid_of_check (h : f.check = .ok ()) : f.Valid := by
  obtain ⟨listed, hn, ha⟩ : ∃ listed, f.checkNodes = .ok listed ∧ f.checkAcyclic = .ok () := by
    simp only [check, bind, Except.bind] at h
    split at h
    case h_1 => cases h
    case h_2 listed hn => exact ⟨listed, hn, h⟩
  have checked {r : Ref} (hr : f.Has r) :
      ∃ i n, r = some i ∧ f.nodes[i]? = some n ∧ i < f.size ∧ f.Checked i n := by
    obtain ⟨i, hi, rfl⟩ := has_iff.mp hr
    obtain ⟨n, hin⟩ := Option.isSome_iff_exists.mp hr
    exact ⟨i, n, rfl, hin, hi, checked_of_checkNodes hn hin⟩
  refine ⟨⟨fun hr => ?parent, fun h => ?child⟩, fun p => ?nodup, fun r => ?rooted,
    fun hl hd hs => ?data, fun hd => ?doc⟩
  case parent =>
    obtain ⟨i, n, rfl, hin, _, hc⟩ := checked (has_of_mem_children hr)
    exact ⟨hc.parents _ (by simpa [children, hin] using hr), by simp⟩
  case child =>
    obtain ⟨rfl, hp⟩ := h
    obtain ⟨i, n, rfl, hin, _, hc⟩ := checked (has_of_parent_ne_none hp)
    have e : f.parent (some i) = n.parent := by simp [parent, hin]
    exact e ▸ hc.parent (e ▸ hp)
  case nodup =>
    by_cases hp : f.Has p
    case pos =>
      obtain ⟨i, n, rfl, hin, _, hc⟩ := checked hp
      simpa [children, hin] using hc.nodup
    case neg => simp [children_of_not_has hp]
  case rooted =>
    by_cases hr : f.Has r
    case pos =>
      obtain ⟨i, _, rfl, _, hi, _⟩ := checked hr
      exact checkAcyclic_ok_iff.mp ha i hi
    case neg => exact .up <| by rw [parent_of_not_has hr]; exact rooted_none
  case data r n d s =>
    have hr : f.Has r := has_iff_label?.mpr (by simp [hl])
    obtain ⟨i, m, rfl, hin, _, hc⟩ := checked hr
    simp only [label?, node?_some, hin, Option.map_some, Option.some.injEq] at hl
    subst hl
    exact hc.data hd hs
  case doc r d =>
    have hr : f.Has r := by
      by_contra hr
      simp only [Has, Option.not_isSome_iff_eq_none] at hr
      simp [docIndex?, hr] at hd
    obtain ⟨i, m, rfl, hin, _, hc⟩ := checked hr
    exact hc.doc (by simpa [docIndex?, hin] using hd)

/- What the check accepts -/

-- A list of children passes if no list before it has named any of them.
theorem checkChildren_of_valid (v : f.Valid) {i : NodeId} {cs : List Ref} {listed : Array Bool}
    (sub : cs ⊆ f.children (some i)) (nodup : cs.Nodup)
    (new : ∀ c : NodeId, some c ∈ cs → listed[c]?.getD false = false) :
    ∃ listed' : Array Bool, f.checkChildren i cs listed = .ok listed' ∧
      ∀ c : NodeId, listed'[c]?.getD false → listed[c]?.getD false ∨ some c ∈ cs := by
  induction cs generalizing listed
  case nil => exact ⟨listed, rfl, fun c h => .inl h⟩
  case cons c cs ih =>
    have hm := sub (List.mem_cons_self ..)
    obtain ⟨c, hc, rfl⟩ := has_iff.mp (v.has_child hm)
    obtain ⟨n, hn⟩ := Option.isSome_iff_exists.mp (v.has_child hm)
    have hp : n.parent = some i := by
      have := v.parent_eq hm
      simpa [parent, hn] using this
    obtain ⟨hnot, nodup⟩ := List.nodup_cons.mp nodup
    have new' (d : NodeId) (hd : some d ∈ cs) : (listed.setIfInBounds c true)[d]?.getD false = false := by
      have hne : c ≠ d := fun e => hnot (e ▸ hd)
      simpa [Array.getElem?_setIfInBounds, hne] using new d (List.mem_cons_of_mem _ hd)
    obtain ⟨listed', ok, only⟩ := ih (fun d hd => sub (List.mem_cons_of_mem _ hd)) nodup new'
    refine ⟨listed', ?accepted, fun d hd => ?marks⟩
    case accepted =>
      have hn : f.nodes[c]? = some n := hn
      have fresh := new c (List.mem_cons_self ..)
      simp only [checkChildren, hn, fresh, hp, ok]
      simp
    case marks =>
      by_cases e : c = d
      case pos => exact .inr (by simp [e])
      case neg =>
        refine (only d hd).imp (fun h => ?_) (List.mem_cons_of_mem _)
        simpa [Array.getElem?_setIfInBounds, e] using h

theorem checkNode_of_valid (v : f.Valid) {i : NodeId} {n : Node} {listed : Array Bool}
    (hn : f.nodes[i]? = some n)
    (new : ∀ c : NodeId, some c ∈ n.children → listed[c]?.getD false = false) :
    ∃ listed' : Array Bool, f.checkNode listed i n = .ok listed' ∧
      ∀ c : NodeId, listed'[c]?.getD false → listed[c]?.getD false ∨ some c ∈ n.children := by
  have children : f.children (some i) = n.children := by simp [Forest.children, hn]
  have sub : n.children ⊆ f.children (some i) := fun _ hc => children ▸ hc
  obtain ⟨listed', ok, only⟩ := checkChildren_of_valid v sub (children ▸ v.nodup (some i)) new
  have parent : f.checkParent i n = .ok () := by
    have hp : f.parent (some i) = n.parent := by simp [Forest.parent, hn]
    unfold checkParent
    split
    case h_1 => rfl
    case h_2 p e =>
      have hm := v.mem_parent (r := some i) (by simp [hp, e])
      rw [hp, e] at hm
      obtain ⟨m, hmn⟩ := Option.isSome_iff_exists.mp (has_of_mem_children hm)
      have hmn : f.nodes[p]? = some m := hmn
      have hm : some i ∈ m.children := by simpa [Forest.children, hmn] using hm
      simp [hmn, hm]
  have label : f.label? (some i) = some n.bare := by simp [label?, hn]
  have data : f.checkData i n = .ok () := by
    unfold checkData
    split
    case h_1 d s hd hs => rw [if_pos (v.data label hd hs)]
    case h_2 => rfl
  have doc : f.checkDoc i n = .ok () := by
    unfold checkDoc
    split
    case h_1 => rfl
    case h_2 d hd => rw [if_pos (v.doc (r := some i) (by simp [docIndex?, hn, hd]))]
  refine ⟨listed', ?_, only⟩
  simp [checkNode, ok, parent, data, doc, bind, Except.bind, pure, Except.pure]

-- The nodes are checked in their order, and only children of earlier ones are marked.
theorem checkNodes_of_valid (v : f.Valid) {before rest : List (Node × NodeId)} {listed : Array Bool}
    (h : f.nodes.toList.zipIdx = before ++ rest)
    (marks : ∀ c : NodeId, listed[c]?.getD false → ∃ x ∈ before, some c ∈ x.1.children) :
    ∃ listed', rest.foldlM (fun listed (n, i) => f.checkNode listed i n) listed = .ok listed' := by
  induction rest generalizing before listed
  case nil => exact ⟨listed, rfl⟩
  case cons x rest ih =>
    obtain ⟨n, i⟩ := x
    have at_index {x : Node × NodeId} (hx : x ∈ before ++ (n, i) :: rest) :
        f.nodes[x.2]? = some x.1 := by
      rw [← h, List.mem_zipIdx_iff_getElem?] at hx
      simpa using hx
    have hn : f.nodes[i]? = some n := at_index (x := (n, i)) (by simp)
    have new (c : NodeId) (hc : some c ∈ n.children) : listed[c]?.getD false = false := by
      by_contra hl
      obtain ⟨⟨m, j⟩, hm, hcm⟩ := marks c (by simpa using hl)
      have hj : f.nodes[j]? = some m := at_index (x := (m, j)) (by simp [hm])
      have e : some j = some i := (v.parent_eq (by simpa [Forest.children, hj] using hcm)).symm.trans
        (v.parent_eq (by simpa [Forest.children, hn] using hc))
      cases e
      have nodup : (f.nodes.toList.zipIdx.map (·.2)).Nodup := by
        simpa using List.nodup_range'
      rw [h, List.map_append, List.map_cons] at nodup
      refine (List.nodup_cons.mp <| List.nodup_middle.mp nodup).left ?_
      exact List.mem_append_left _ <| List.mem_map.mpr ⟨_, hm, rfl⟩
    obtain ⟨listed', ok, only⟩ := checkNode_of_valid v hn new
    have marks' (c : NodeId) (hc : listed'[c]?.getD false) :
        ∃ x ∈ before ++ [(n, i)], some c ∈ x.1.children :=
      (only c hc).elim
        (fun hl => (marks c hl).imp fun x hx => ⟨List.mem_append_left _ hx.left, hx.right⟩)
        (fun hm => ⟨(n, i), by simp, hm⟩)
    obtain ⟨listed'', rest_ok⟩ := ih (by simpa using h) marks'
    exact ⟨listed'', by simp [List.foldlM_cons, ok, bind, Except.bind, rest_ok]⟩

theorem check_of_valid (v : f.Valid) : f.check = .ok () := by
  have marks (c : NodeId) (hc : (Array.replicate f.size false)[c]?.getD false) :
      ∃ x ∈ ([] : List (Node × NodeId)), some c ∈ x.1.children := by
    simp only [Array.getElem?_replicate] at hc
    split at hc <;> simp at hc
  obtain ⟨listed, nodes⟩ : ∃ listed, f.checkNodes = .ok listed :=
    checkNodes_of_valid v (List.nil_append _).symm marks
  have acyclic : f.checkAcyclic = .ok () := checkAcyclic_ok_iff.mpr fun i _ => v.rooted (some i)
  simp [check, nodes, acyclic, bind, Except.bind]

end ClassLift.Forest
