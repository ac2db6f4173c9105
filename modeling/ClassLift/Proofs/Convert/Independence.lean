import ClassLift.Proofs.Convert.Frame
import ClassLift.Proofs.Convert.Hosted
import Mathlib.Algebra.GroupWithZero.Nat

/-!
The scripts of a root, which are converted one after the other. No conversion has to do with the others:
each gives what it gives alone, and the whole gives what they give together, in whatever order they
stand.
-/

namespace ClassLift

open Forest

variable {options : Options} {f g e : Forest} {root s t x : Ref} {rs cs : List Ref} {log : Log}
variable {part : Ref → Summary}

/- Sums -/

def Stats.sum (parts : List Stats) : Stats where
  codeChanges := (parts.map (·.codeChanges)).sum
  classesPromoted := (parts.map (·.classesPromoted)).sum
  membersMerged := (parts.map (·.membersMerged)).sum
  classesRegistered := (parts.map (·.classesRegistered)).sum

theorem Stats.sum_perm {parts parts' : List Stats} (h : parts.Perm parts') : sum parts = sum parts' := by
  unfold sum
  congr 1 <;> exact (h.map _).sum_nat

-- The results of some scripts together.
def Summary.join (part : Ref → Summary) (ss : List Ref) : Summary where
  findings := ss.flatMap fun s => (part s).findings
  stats := .sum (ss.map fun s => (part s).stats)

theorem Summary.join_cons (part : Ref → Summary) (s : Ref) (ss : List Ref) :
    join part (s :: ss) = (part s).add (join part ss) := rfl

/- Trees beside each other -/

theorem Framed.hosts {ss : List Ref} (h : Framed f g ss log) (ht : f.Has t)
    (apart : ∀ s ∈ ss, Apart f s t) : Hosts f g t where
  valid   := h.valid
  size    := h.ext.size_le
  node hx := h.node?_eq (hx.has ht) fun s hs hc => apart s hs _ hc hx
  texts   := h.ext.texts
  files   := h.ext.files
  docs    := h.ext.docs

-- The conversion of one child of a root leaves all of them there.
theorem Framed.siblings (h : Framed f g [s] log) (v : f.Valid) (b : Siblings f root (s :: rs)) :
    Siblings g root (s :: rs) where
  ne_none      := b.ne_none
  parents t ht := by
    have mem {t : Ref} (ht : t ∈ s :: rs) : t ∈ f.children root :=
      v.mem_children.mpr ⟨b.parents t ht, b.ne_none⟩
    have top : g.children root = f.children root :=
      (h.apart (has_of_mem_children (mem ht)) fun s' hs' =>
        List.mem_singleton.mp hs' ▸ v.not_contains_of_child (mem (List.mem_cons_self ..))).left
    exact h.valid.parent_eq (top ▸ mem ht)
  nodup        := b.nodup

theorem Siblings.hosted (b : Siblings f root rs) (hosts : ∀ t ∈ rs, Hosts f e t) : Siblings e root rs where
  ne_none      := b.ne_none
  parents t ht := ((hosts t ht).parent_eq .refl).trans (b.parents t ht)
  nodup        := b.nodup

-- The conversions of its siblings leave a child of a root alone.
theorem hosts_of_scripts (options : Options) (v : f.Valid) (b : Siblings f root (s :: rs)) (total : Summary) :
    Hosts f (convertScripts options rs total f).2 s := by
  obtain ⟨framed, scripts⟩ := framed_of_scripts total v b.tail
  refine framed.hosts (b.has (List.mem_cons_self ..)) fun t ht => ?_
  have ht := (List.mem_filter.mp (scripts.subset ht)).left
  exact (b.apart v ht).symm

-- What comes after a script is as it was when the script has been converted.
theorem Framed.hosts_rest (h : Framed e g [s] log) (v : f.Valid) (ve : e.Valid) (b : Siblings f root (s :: rs))
    (hosts : ∀ t ∈ s :: rs, Hosts f e t) (ht : t ∈ rs) : Hosts f g t := by
  have b' : Siblings e root (s :: rs) := b.hosted hosts
  have kept : Hosts e g t := h.hosts (b'.tail.has ht) fun s' hs => List.mem_singleton.mp hs ▸ b'.apart ve ht
  exact (hosts t (List.mem_cons_of_mem _ ht)).trans kept v (b.tail.has ht).ne_none

-- The scripts among `rs`, one after the other, where each gives its part alone.
theorem convertScripts_of_alone (v : f.Valid) (b : Siblings f root rs)
    (alone : ∀ s ∈ rs, f.isKind s .script → (f.convertScript options s).1 = .ok (part s))
    (ve : e.Valid) (hosts : ∀ t ∈ rs, Hosts f e t) (total : Summary) :
    (convertScripts options rs total e).1 =
      .ok (total.add (.join part (rs.filter (f.isKind · .script)))) ∧
    ∀ s ∈ rs, f.isKind s .script →
      (convertScripts options rs total e).2.dump s = (f.convertScript options s).2.dump s ∧
      ∃ k, Copies f s k (f.convertScript options s).2 (convertScripts options rs total e).2 := by
  induction rs generalizing e total
  case nil => exact ⟨congrArg _ (Summary.add_zero total).symm, nofun⟩
  case cons r rs ih =>
    have sub {t : Ref} (ht : t ∈ rs) : t ∈ r :: rs := List.mem_cons_of_mem _ ht
    have here : Hosts f e r := hosts r (List.mem_cons_self ..)
    have kind : e.isKind r .script = f.isKind r .script := here.isKind_eq .refl _
    replace ih {e : Forest} := ih b.tail (fun t ht => alone t (sub ht)) (e := e)
    rw [convertScripts, kind, List.filter_cons]
    by_cases hk : f.isKind r .script
    case neg =>
      simp only [hk, Bool.false_eq_true, if_false]
      obtain ⟨ok, copies⟩ := ih ve (fun t ht => hosts t (sub ht)) total
      refine ⟨ok, fun s hs script => ?_⟩
      rcases List.mem_cons.mp hs with rfl | hs
      · exact absurd script hk
      · exact copies s hs script
    case pos =>
      obtain ⟨ok, k, m⟩ := here.convertScript v (alone r (List.mem_cons_self ..) hk)
      have first : Framed e (e.convertScript options r).2 [r] (e.changes options r) :=
        .of_script ve (isKind_iff.mp (kind.trans hk))
      have outcome : e.convertScript options r = (.ok (part r), (e.convertScript options r).2) :=
        Prod.ext ok rfl
      generalize (e.convertScript options r).2 = e₁ at outcome first m
      simp only [hk, if_true, outcome]
      obtain ⟨ok', copies⟩ := ih first.valid
        (fun t ht => first.hosts_rest v ve b hosts ht) (total.add (part r))
      refine ⟨by rw [ok', Summary.join_cons, Summary.add_assoc], fun s hs script => ?_⟩
      rcases List.mem_cons.mp hs with rfl | hs
      case inr => exact copies s hs script
      case inl =>
        have b₁ : Siblings e₁ root (s :: rs) := first.siblings ve (b.hosted hosts)
        have has : f.Has s := b.has hs
        have valid : (f.convertScript options s).2.Valid := valid_convertScript v (isKind_iff.mp hk)
        have kept := hosts_of_scripts options first.valid b₁ (total.add (part s))
        have dump := m.dump_eq valid (sees_of_contains .refl) has.ne_none
        rw [shift_of_has has] at dump
        exact ⟨(kept.dump_eq first.valid (b₁.has hs)).trans dump,
          k, m.copies valid has kept first.valid⟩

/- The order of the scripts -/

namespace Forest

theorem setChildren_self (f : Forest) (r : Ref) : f.setChildren r (f.children r) = f := by
  cases r
  case none => rfl
  case some i =>
    have nodes : f.nodes.modify i ({ · with children := f.children (some i) }) = f.nodes := by
      refine Array.ext (by simp) fun j hj hj' => ?_
      rw [Array.getElem_modify]
      split
      case isFalse => rfl
      case isTrue e =>
        subst e
        simp [children, hj']
    exact congrArg (fun nodes => { f with nodes := nodes }) nodes

variable (v : f.Valid) (hr : f.Has root) (same : cs.Perm (f.children root))
include v hr same

theorem valid_reorder : (f.setChildren root cs).Valid := by
  have rewires : (f.setChildren root cs).Rewires f :=
    ⟨fun _ => label?_setChildren, texts_setChildren, files_setChildren, docs_setChildren⟩
  refine v.rewire rewires (fun {r p} => ?mem) (fun p => ?nodup) fun r => ?rooted
  case mem =>
    rw [children_setChildren hr, parent_setChildren, ← v.mem_children]
    split
    case isTrue e => rw [e, same.mem_iff]
    case isFalse => rfl
  case nodup =>
    rw [children_setChildren hr]
    split
    · exact same.nodup_iff.mpr (v.nodup root)
    · exact v.nodup p
  case rooted => exact (v.rooted r).transfer fun x _ _ => .inr parent_setChildren

theorem hosts_reorder (hs : s ∈ f.children root) : Hosts f (f.setChildren root cs) s where
  valid      := valid_reorder v hr same
  size       := by simp [setChildren]
  node hx    := node?_modify_of_ne _ _ fun e => v.not_contains_of_child hs (e ▸ hx)
  texts      := ⟨#[], by simp⟩
  files      := files_setChildren
  docs       := docs_setChildren

end Forest

-- A root whose scripts are in any order.
theorem convert_reorder (v : f.Valid) (hr : f.kind? root = some .root)
    (alone : ∀ s ∈ f.scripts root, (f.convertScript options s).1 = .ok (part s))
    (same : cs.Perm (f.children root)) :
    let g := ((f.setChildren root cs).convert options root).2
    ((f.setChildren root cs).convert options root).1 = .ok (.join part (cs.filter (f.isKind · .script))) ∧
    (∀ s ∈ f.scripts root, g.dump s = (f.convertScript options s).2.dump s ∧
      ∃ k, Copies f s k (f.convertScript options s).2 g) ∧
    (∀ x, f.Has x → (∀ s ∈ f.scripts root, ¬f.Contains s x) →
      g.node? x = (f.setChildren root cs).node? x) := by
  have has := has_of_kind? hr
  have valid := valid_reorder v has same
  have kind (s : Ref) : (f.setChildren root cs).kind? s = f.kind? s := by
    rw [kind?_eq_label?, label?_setChildren, ← kind?_eq_label?]
  have children : (f.setChildren root cs).children root = cs := by rw [children_setChildren has, if_pos rfl]
  have mem {t : Ref} (ht : t ∈ cs) : t ∈ f.children root := same.mem_iff.mp ht
  have isScript {s : Ref} : s ∈ f.scripts root ↔ s ∈ cs ∧ f.isKind s .script := by
    simp [scripts, isKind, hr, same.mem_iff]
  have whole : (f.setChildren root cs).convert options root =
      convertScripts options cs {} (f.setChildren root cs) := by
    rw [convert, if_neg (by simp [isKind, kind, hr]), expectKind_eq_ok (u := ()) |>.mpr ((kind root).trans hr),
      children]
  obtain ⟨ok, copies⟩ := convertScripts_of_alone (e := f.setChildren root cs) v
    ⟨has.ne_none, fun t ht => v.parent_eq (mem ht), same.nodup_iff.mpr (v.nodup root)⟩
    (fun s hs script => alone s (isScript.mpr ⟨hs, script⟩)) valid
    (fun t ht => hosts_reorder v has same (mem ht)) {}
  rw [← whole] at ok copies
  refine ⟨by rw [ok, Summary.zero_add], fun s hs => ?copies, fun x hx out => ?rest⟩
  case copies =>
    have hs := isScript.mp hs
    exact copies s hs.left hs.right
  case rest =>
    obtain ⟨framed, before⟩ := framed_of_convert valid options root
    refine framed.node?_eq (has_setChildren.mpr hx) fun s hs hc => ?_
    have hs : s ∈ f.scripts root := by
      simpa [scripts, isKind, kind, hr, children, same.mem_iff] using before.subset hs
    have hosted := hosts_reorder v has same (mem (isScript.mp hs).left)
    exact out s hs ((hosted.contains_iff v (v.has_child (mem (isScript.mp hs).left)).ne_none).mp hc)

-- Scripts are converted independently of each other. The whole conversion finds and counts what those of
-- the scripts alone do, and leaves the same trees behind. If the scripts stand in another order, so do the
-- findings, and nothing else is different.
theorem scripts_independent (h : f.check = .ok ()) (hr : f.kind? root = some .root)
    (alone : ∀ s ∈ f.scripts root, (f.convertScript options s).1 = .ok (part s)) :
    let g := (f.convert options root).2
    (f.convert options root).1 = .ok {
      findings := (f.scripts root).flatMap fun s => (part s).findings
      stats := .sum ((f.scripts root).map fun s => (part s).stats) } ∧
    (∀ s ∈ f.scripts root, g.dump s = (f.convertScript options s).2.dump s ∧
      ∃ k, Copies f s k (f.convertScript options s).2 g) ∧
    g.children root = f.children root ∧
    (∀ c ∈ f.children root, f.kind? c ≠ some .script → g.dump c = f.dump c ∧
      ∀ x, (g.Contains c x ↔ f.Contains c x) ∧ (f.Contains c x → g.node? x = f.node? x)) ∧
    ∀ cs, cs.Perm (f.children root) →
      let e := f.setChildren root cs
      let g' := (e.convert options root).2
      e.check = .ok () ∧
      (e.convert options root).1 = .ok {
        findings := (cs.filter (f.isKind · .script)).flatMap fun s => (part s).findings
        stats := .sum ((f.scripts root).map fun s => (part s).stats) } ∧
      (∀ s ∈ f.scripts root, g'.dump s = g.dump s ∧
        ∃ k, Copies f s k (f.convertScript options s).2 g') ∧
      g'.children root = cs ∧
      ∀ x, f.Has x → x ≠ root → (∀ s ∈ f.scripts root, ¬f.Contains s x) → g'.node? x = g.node? x := by
  have v := valid_of_check h
  have has := has_of_kind? hr
  have isScript {s : Ref} : s ∈ f.scripts root ↔ s ∈ f.children root ∧ f.isKind s .script := by
    simp [scripts, isKind, hr]
  have outside {s : Ref} (hs : s ∈ f.scripts root) : ¬f.Contains s root :=
    v.not_contains_of_child (isScript.mp hs).left
  have order : f.scripts root = (f.children root).filter (f.isKind · .script) := by
    simp [scripts, isKind, hr]
  obtain ⟨ok, copies, rest⟩ := convert_reorder v hr alone (.refl _)
  rw [setChildren_self] at ok copies rest
  obtain ⟨framed, before⟩ := framed_of_convert v options root
  refine ⟨by rw [ok, order]; rfl, copies, ?children, fun c hc hk => ?other, fun cs same => ?permuted⟩
  case children => rw [Forest.children, rest root has fun s => outside, ← Forest.children]
  case other =>
    have apart (s : Ref) (hs : s ∈ f.attempted options root) : Apart f s c := by
      have hs := isScript.mp (before.subset hs)
      refine apart_of_parent v has.ne_none (v.parent_eq hs.left) (v.parent_eq hc) fun e => hk ?_
      exact isKind_iff.mp (e ▸ hs.right)
    have kept := framed.hosts (v.has_child hc) apart
    exact ⟨kept.dump_eq v (v.has_child hc), fun x =>
      ⟨kept.contains_iff v (v.has_child hc).ne_none, fun hx => kept.node hx⟩⟩
  case permuted =>
    obtain ⟨ok', copies', rest'⟩ := convert_reorder v hr alone same
    refine ⟨check_of_valid (valid_reorder v has same), ?ok, fun s hs => ?copies, ?list, fun x hx ne out => ?rest⟩
    case ok =>
      rw [ok', order, Summary.join, Stats.sum_perm ((same.filter _).map _)]
    case copies => exact ⟨(copies' s hs).left.trans (copies s hs).left.symm, (copies' s hs).right⟩
    case list =>
      rw [Forest.children, rest' root has fun s => outside, ← Forest.children, children_setChildren has,
        if_pos rfl]
    case rest =>
      rw [rest' x hx out, rest x hx out]
      exact node?_modify_of_ne _ _ (Ne.symm ne)

-- Two scripts and something else. The class that the second script names is in the first one.
def bundle : Forest where
  nodes := #[
    { kind := .root, children := [some 1, some 17, some 29] },
    { kind := .script, data := some 0, parent := some 0, children := [some 2, some 6] },
    { kind := .function, doc := some 0, parent := some 1, children := [some 3, some 4, some 5] },
    { kind := .identifier, data := some 0, parent := some 2 },
    { kind := .parameterList, parent := some 2 },
    { kind := .block, parent := some 2 },
    { kind := .expressionStatement, parent := some 1, children := [some 7] },
    { kind := .assignment, parent := some 6, children := [some 8, some 13] },
    { kind := .propertyAccess, parent := some 7, children := [some 9, some 12] },
    { kind := .propertyAccess, parent := some 8, children := [some 10, some 11] },
    { kind := .identifier, data := some 0, parent := some 9 },
    { kind := .identifier, data := some 1, parent := some 9 },
    { kind := .identifier, data := some 2, parent := some 8 },
    { kind := .function, parent := some 7, children := [some 14, some 15, some 16] },
    { kind := .empty, parent := some 13 },
    { kind := .parameterList, parent := some 13 },
    { kind := .block, parent := some 13 },
    { kind := .script, data := some 1, parent := some 0, children := [some 18] },
    { kind := .expressionStatement, parent := some 17, children := [some 19] },
    { kind := .assignment, parent := some 18, children := [some 20, some 25] },
    { kind := .propertyAccess, parent := some 19, children := [some 21, some 24] },
    { kind := .propertyAccess, parent := some 20, children := [some 22, some 23] },
    { kind := .identifier, data := some 0, parent := some 21 },
    { kind := .identifier, data := some 1, parent := some 21 },
    { kind := .identifier, data := some 2, parent := some 20 },
    { kind := .function, parent := some 19, children := [some 26, some 27, some 28] },
    { kind := .empty, parent := some 25 },
    { kind := .parameterList, parent := some 25 },
    { kind := .block, parent := some 25 },
    { kind := .empty, parent := some 0 }]
  texts := #["A", "prototype", "m"]
  files := #["a.js", "b.js"]
  docs := #[.constructor none none]

theorem bundle_check : bundle.check = .ok () :=
  (check_eq_checkChains _).trans rfl

theorem convertScript_of_fold (v : f.Valid) (ok : (f.foldScript options s).1 = .ok ()) :
    (f.convertScript options s).1 = .ok (f.foldScript options s).2.summary := by
  rw [convertScript, runScript_eq_foldScript v]
  show (f.foldScript options s).1.map _ = _
  rw [ok]
  rfl

-- The class of the first script is unknown in the second, in either order.
theorem scripts_independent_bundle :
    let found (result : Except ConversionError Summary) := result.map fun summary =>
      (summary.findings.map fun finding => (finding.diagnostic.file, finding.className), summary.stats)
    let stats : Stats :=
      { codeChanges := 2, classesPromoted := 1, membersMerged := 1, classesRegistered := 1 }
    let moved := bundle.setChildren (some 0) [some 29, some 17, some 1]
    found (bundle.convert {} (some 0)).1 = .ok ([("b.js", "A")], stats) ∧
      found (moved.convert {} (some 0)).1 = .ok ([("b.js", "A")], stats) ∧
      (moved.convert {} (some 0)).2.dump (some 1) = (bundle.convert {} (some 0)).2.dump (some 1) := by
  have v := valid_of_check bundle_check
  have scripts : bundle.scripts (some 0) = [some 1, some 17] := rfl
  have alone (s : Ref) (hs : s ∈ bundle.scripts (some 0)) :
      (bundle.convertScript {} s).1 = .ok (bundle.foldScript {} s).2.summary := by
    refine convertScript_of_fold v ?_
    have ok : ∀ s ∈ [some 1, some 17], (bundle.foldScript {} s).1 = .ok () := by decide
    exact ok s (scripts ▸ hs)
  obtain ⟨ok, -, -, -, permuted⟩ := scripts_independent bundle_check rfl alone
  obtain ⟨-, ok', dumps, -⟩ := permuted [some 29, some 17, some 1] (by decide)
  refine ⟨?_, ?_, (dumps (some 1) (by simp [scripts])).left⟩
  · rw [ok, scripts]
    rfl
  · rw [ok', scripts]
    rfl

end ClassLift
