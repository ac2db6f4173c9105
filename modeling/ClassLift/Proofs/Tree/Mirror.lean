import ClassLift.Proofs.Tree.Edits
import ClassLift.Proofs.Tree.Postorder
import ClassLift.Tree.Dump
import Mathlib.Data.Option.Basic

/-!
A tree in two forests. One of them has more nodes, so that the nodes that are new in both do not have
the same numbers, but otherwise the tree is the same. What is done to it in both forests keeps it so.
-/

namespace ClassLift

namespace Forest

-- The nodes that a forest does not have yet have moved on by `k` places.
def shift (f : Forest) (k : Nat) (x : Ref) : Ref :=
  x.map fun i => if i < f.size then i else i + k

-- From the tree below `s` nothing else is seen than this tree and new nodes.
def Sees (f : Forest) (s x : Ref) : Prop :=
  f.Has x → f.Contains s x

variable {f g h : Forest} {s x y c p : Ref} {k : Nat} {cs : List Ref}

@[simp]
theorem shift_none : f.shift k none = none := rfl

theorem shift_some {i : Nat} : f.shift k (some i) = some (if i < f.size then i else i + k) := rfl

theorem shift_of_has (hx : f.Has x) : f.shift k x = x := by
  obtain ⟨i, hi, rfl⟩ := has_iff.mp hx
  rw [shift_some, if_pos hi]

theorem shift_of_ref (h : x ≠ none → f.Has x) : f.shift k x = x := by
  by_cases e : x = none
  case pos => rw [e, shift_none]
  case neg => exact shift_of_has (h e)

theorem shift_injective : (f.shift k).Injective := by
  have injective (n k : Nat) : Function.Injective fun i : Nat => if i < n then i else i + k := by
    intro i j e
    simp only at e
    split at e <;> split at e <;> omega
  exact Option.map_injective (injective f.size k)

theorem shift_eq_none : f.shift k x = none ↔ x = none :=
  ⟨fun e => shift_injective (e.trans shift_none.symm), by rintro rfl; rfl⟩

@[simp]
theorem sees_none : f.Sees s none := fun h => absurd rfl h.ne_none

theorem sees_of_contains (h : f.Contains s x) : f.Sees s x := fun _ => h

theorem sees_of_new (h : ¬f.Has x) : f.Sees s x := fun hx => absurd hx h

end Forest

open Forest

/- Lists -/

theorem map_replace {α : Type} [BEq α] [LawfulBEq α] {ρ : α → α} (hρ : ρ.Injective) {xs : List α} {a b : α} :
    (xs.replace a b).map ρ = (xs.map ρ).replace (ρ a) (ρ b) := by
  induction xs
  case nil => rfl
  case cons x xs ih =>
    by_cases e : x = a
    case pos => simp [e, List.replace_cons_self]
    case neg =>
      have e' : ρ a ≠ ρ x := fun h => e (hρ h).symm
      simp [List.replace_cons, beq_eq_false_iff_ne.mpr (Ne.symm e), beq_eq_false_iff_ne.mpr e', ih]

theorem mem_of_mem_replace {α : Type} [BEq α] [LawfulBEq α] {xs : List α} {a b c : α}
    (h : c ∈ xs.replace a b) : c ∈ xs ∨ c = b := by
  induction xs
  case nil => cases h
  case cons x xs ih =>
    rw [List.replace_cons] at h
    split at h <;> rcases List.mem_cons.mp h with rfl | h
    · exact .inr rfl
    · exact .inl (List.mem_cons_of_mem _ h)
    · exact .inl (List.mem_cons_self ..)
    · exact (ih h).imp_left (List.mem_cons_of_mem _)

-- Beyond the depth of the tree more depth makes no difference.
theorem Forest.dumpWithin_eq {f : Forest} {r : Ref} {depth depth' : Nat} (v : f.Valid)
    (h : f.Shallow depth r) (h' : f.Shallow depth' r) : f.dumpWithin depth r = f.dumpWithin depth' r := by
  induction depth generalizing depth' r
  case zero => exact absurd h Shallow.not_zero
  case succ depth ih =>
    cases depth'
    case zero => exact absurd h' Shallow.not_zero
    case succ depth' =>
      rw [dumpWithin, dumpWithin]
      cases hn : f.node? r
      case none => rfl
      case some n =>
        have children : f.children r = n.children := by simp [Forest.children, hn]
        have same (c : Ref) (hc : c ∈ n.children) : f.dumpWithin depth c = f.dumpWithin depth' c :=
          ih (h.child v (children ▸ hc)) (h'.child v (children ▸ hc))
        simp only
        rw [List.map_congr_left fun c hc => congrArg (" " ++ ·) (same c hc)]

/- Nodes -/

-- Where a text is in two pools.
def SameText (ts us : Array String) (d e : Option Nat) : Prop :=
  d = none ∧ e = none ∨ ∃ t, d.bind (ts[·]?) = some t ∧ e.bind (us[·]?) = some t

namespace SameText

variable {ts us : Array String} {d e : Option Nat}

theorem bind_eq (h : SameText ts us d e) : e.bind (us[·]?) = d.bind (ts[·]?) := by
  rcases h with ⟨rfl, rfl⟩ | ⟨t, hd, he⟩
  · rfl
  · exact he.trans hd.symm

theorem mono (h : SameText ts us d e) {ts' us' : Array String}
    (ht : ∀ {i : Nat} {t}, ts[i]? = some t → ts'[i]? = some t)
    (hu : ∀ {i : Nat} {t}, us[i]? = some t → us'[i]? = some t) : SameText ts' us' d e := by
  rcases h with h | ⟨t, hd, he⟩
  · exact .inl h
  · obtain ⟨i, rfl, hi⟩ := Option.bind_eq_some_iff.mp hd
    obtain ⟨j, rfl, hj⟩ := Option.bind_eq_some_iff.mp he
    exact .inr ⟨t, ht hi, hu hj⟩

end SameText

-- Two nodes that only differ in the numbers of others and in where their texts are.
structure Twin (ρ : Ref → Ref) (ts us : Array String) (a b : Node) : Prop where
  kind     : b.kind = a.kind
  flags    : b.flags = a.flags
  span     : b.pos = a.pos ∧ b.stop = a.stop
  doc      : b.doc = a.doc
  parent   : b.parent = ρ a.parent
  children : b.children = a.children.map ρ
  text     : a.kind.hasText → SameText ts us a.data b.data
  file     : a.kind = .script → b.data = a.data

theorem Twin.mono {ρ : Ref → Ref} {ts us ts' us' : Array String} {a b : Node} (t : Twin ρ ts us a b)
    (ht : ∀ {i : Nat} {t}, ts[i]? = some t → ts'[i]? = some t)
    (hu : ∀ {i : Nat} {t}, us[i]? = some t → us'[i]? = some t) : Twin ρ ts' us' a b :=
  { t with text := fun h => (t.text h).mono ht hu }

/- Forests -/

-- What is seen from `s` is the same in `g` and in `h`, which have both come from the tree in `f`.
structure Mirror (f : Forest) (s : Ref) (k : Nat) (g h : Forest) : Prop where
  size     : h.size = g.size + k
  grows    : f.size ≤ g.size
  files    : h.files = g.files
  docs     : h.docs = g.docs
  node     : ∀ {x}, f.Sees s x →
    Option.Rel (Twin (f.shift k) g.texts h.texts) (g.node? x) (h.node? (f.shift k x))
  children : ∀ {x c}, f.Sees s x → c ∈ g.children x → f.Sees s c
  parent   : ∀ {x}, f.Sees s x → x ≠ s → f.Sees s (g.parent x)

-- The same node in both forests.
structure MirrorAt (f : Forest) (s : Ref) (k : Nat) (p q : Forest × Ref) : Prop where
  forest : Mirror f s k p.1 q.1
  ref    : q.2 = f.shift k p.2
  sees   : f.Sees s p.2

namespace Mirror

variable {f g h : Forest} {s x y c p : Ref} {k : Nat} {cs : List Ref}

/- Reading -/

section Reads

variable (m : Mirror f s k g h) (hx : f.Sees s x)
include m hx

theorem cases : g.node? x = none ∧ h.node? (f.shift k x) = none ∨
    ∃ a b, g.node? x = some a ∧ h.node? (f.shift k x) = some b ∧
      Twin (f.shift k) g.texts h.texts a b := by
  have rel := m.node hx
  generalize g.node? x = u at rel
  generalize h.node? (f.shift k x) = v at rel
  cases rel
  case none => exact .inl ⟨rfl, rfl⟩
  case some t => exact .inr ⟨_, _, rfl, rfl, t⟩

theorem map_node? {α : Type} (view view' : Node → α)
    (same : ∀ a b, Twin (f.shift k) g.texts h.texts a b → view' b = view a) :
    (h.node? (f.shift k x)).map view' = (g.node? x).map view := by
  rcases m.cases hx with ⟨ha, hb⟩ | ⟨a, b, ha, hb, t⟩ <;> rw [ha, hb]
  · rfl
  · exact congrArg some (same a b t)

theorem kind?_eq : h.kind? (f.shift k x) = g.kind? x :=
  m.map_node? hx _ _ fun _ _ t => t.kind

theorem isKind_eq (kind : Kind) : h.isKind (f.shift k x) kind = g.isKind x kind := by
  rw [isKind, isKind, m.kind?_eq hx]

theorem has_iff : h.Has (f.shift k x) ↔ g.Has x := by
  rcases m.cases hx with ⟨ha, hb⟩ | ⟨a, b, ha, hb, -⟩ <;> simp [Has, ha, hb]

theorem parent_eq : h.parent (f.shift k x) = f.shift k (g.parent x) := by
  rcases m.cases hx with ⟨ha, hb⟩ | ⟨a, b, ha, hb, t⟩ <;> simp [Forest.parent, ha, hb]
  exact t.parent

theorem children_eq : h.children (f.shift k x) = (g.children x).map (f.shift k) := by
  rcases m.cases hx with ⟨ha, hb⟩ | ⟨a, b, ha, hb, t⟩ <;> simp [Forest.children, ha, hb]
  exact t.children

theorem child_eq (i : Nat) : h.child (f.shift k x) i = f.shift k (g.child x i) := by
  rw [child, child, m.children_eq hx, List.getElem?_map]
  cases (g.children x)[i]? <;> rfl

theorem last_eq : h.last (f.shift k x) = f.shift k (g.last x) := by
  rw [last, last, m.children_eq hx, List.getLast?_map]
  cases (g.children x).getLast? <;> rfl

theorem first_eq : h.first (f.shift k x) = f.shift k (g.first x) :=
  m.child_eq hx 0

theorem second_eq : h.second (f.shift k x) = f.shift k (g.second x) :=
  m.child_eq hx 1

theorem docIndex?_eq : h.docIndex? (f.shift k x) = g.docIndex? x := by
  rcases m.cases hx with ⟨ha, hb⟩ | ⟨a, b, ha, hb, t⟩ <;> simp [docIndex?, ha, hb]
  exact t.doc

theorem text?_eq : h.text? (f.shift k x) = g.text? x := by
  rcases m.cases hx with ⟨ha, hb⟩ | ⟨a, b, ha, hb, t⟩ <;> simp only [text?, ha, hb, Option.bind_some]
  · rfl
  · rw [t.kind]
    split
    case isTrue hk => exact (t.text hk).bind_eq
    case isFalse => rfl

theorem fileName?_eq : h.fileName? (f.shift k x) = g.fileName? x := by
  rcases m.cases hx with ⟨ha, hb⟩ | ⟨a, b, ha, hb, t⟩ <;> simp only [fileName?, ha, hb, Option.bind_some]
  · rfl
  · rw [t.kind, m.files]
    split
    case isTrue hk => rw [t.file hk]
    case isFalse => rfl

theorem identifierText?_eq : h.identifierText? (f.shift k x) = g.identifierText? x := by
  rw [identifierText?, identifierText?, m.isKind_eq hx, m.text?_eq hx]

theorem sees_child (i : Nat) : f.Sees s (g.child x i) := by
  by_cases hn : g.child x i = none
  case pos => simp [hn]
  case neg => exact m.children hx (child_mem hn)

theorem sees_first : f.Sees s (g.first x) :=
  m.sees_child hx 0

theorem sees_second : f.Sees s (g.second x) :=
  m.sees_child hx 1

theorem sees_last : f.Sees s (g.last x) := by
  by_cases hn : g.last x = none
  case pos => simp [hn]
  case neg => exact m.children hx (last_mem hn)

end Reads

/- Updates of a node -/

section Updates

variable (m : Mirror f s k g h) (hx : f.Sees s x)
include m hx

theorem modify {u v : Node → Node}
    (twin : ∀ a b, Twin (f.shift k) g.texts h.texts a b → Twin (f.shift k) g.texts h.texts (u a) (v b))
    (below : ∀ a, g.node? x = some a → ∀ c ∈ (u a).children, f.Sees s c)
    (above : ∀ a, g.node? x = some a → x ≠ s → f.Sees s (u a).parent) :
    Mirror f s k (g.modify x u) (h.modify (f.shift k x) v) := by
  refine ⟨by simp [m.size], by simp [m.grows], by simp [m.files], by simp [m.docs],
    fun {y} hy => ?node, fun {y c} hy hc => ?children, fun {y} hy hs => ?parent⟩
  case node =>
    rw [texts_modify, texts_modify]
    by_cases e : x = y
    case pos =>
      subst e
      rw [node?_modify_self, node?_modify_self]
      rcases m.cases hx with ⟨ha, hb⟩ | ⟨a, b, ha, hb, t⟩ <;> rw [ha, hb]
      · exact .none
      · exact .some (twin a b t)
    case neg =>
      rw [node?_modify_of_ne _ _ e, node?_modify_of_ne _ _ fun e' => e (shift_injective e')]
      exact m.node hy
  case children =>
    by_cases e : x = y
    case pos =>
      subst e
      rw [Forest.children, node?_modify_self] at hc
      cases ha : g.node? x <;> rw [ha] at hc
      case none => cases hc
      case some a => exact below a ha c hc
    case neg =>
      rw [Forest.children, node?_modify_of_ne _ _ e] at hc
      exact m.children hy hc
  case parent =>
    by_cases e : x = y
    case pos =>
      subst e
      rw [Forest.parent, node?_modify_self]
      cases ha : g.node? x
      case none => exact sees_none
      case some a => exact above a ha hs
    case neg =>
      rw [Forest.parent, node?_modify_of_ne _ _ e]
      exact m.parent hy hs

-- An update that leaves the edges alone.
theorem relabel {u v : Node → Node}
    (twin : ∀ a b, Twin (f.shift k) g.texts h.texts a b → Twin (f.shift k) g.texts h.texts (u a) (v b))
    (edges : ∀ a, (u a).children = a.children ∧ (u a).parent = a.parent) :
    Mirror f s k (g.modify x u) (h.modify (f.shift k x) v) := by
  refine m.modify hx twin (fun a ha c hc => ?_) fun a ha hs => ?_
  · refine m.children hx ?_
    rw [(edges a).left] at hc
    simpa [Forest.children, ha] using hc
  · rw [(edges a).right]
    simpa [Forest.parent, ha] using m.parent hx hs

theorem addFlags (flags : Flags) :
    Mirror f s k (g.addFlags x flags) (h.addFlags (f.shift k x) flags) :=
  m.relabel hx (fun _ _ t => { t with flags := congrArg (·.union flags) t.flags }) fun _ => ⟨rfl, rfl⟩

theorem setDoc (doc : Option Nat) : Mirror f s k (g.setDoc x doc) (h.setDoc (f.shift k x) doc) :=
  m.relabel hx (fun _ _ t => { t with doc := rfl }) fun _ => ⟨rfl, rfl⟩

theorem copySpan (hy : f.Sees s y) :
    Mirror f s k (g.copySpan y x) (h.copySpan (f.shift k y) (f.shift k x)) := by
  rcases m.cases hy with ⟨ha, hb⟩ | ⟨a, b, ha, hb, t⟩ <;>
    simp only [Forest.copySpan, ha, hb]
  · exact m
  · rw [t.span.left, t.span.right]
    exact m.relabel hx (fun _ _ t => { t with span := ⟨rfl, rfl⟩ }) fun _ => ⟨rfl, rfl⟩

theorem setParent (hp : f.Sees s p) :
    Mirror f s k (g.setParent x p) (h.setParent (f.shift k x) (f.shift k p)) := by
  refine m.modify hx (fun _ _ t => { t with parent := rfl }) (fun a ha c hc => ?_) fun _ _ _ => hp
  exact m.children hx (by simpa [Forest.children, ha] using hc)

theorem setChildren (cs : List Ref) (hc : ∀ c ∈ cs, f.Sees s c) :
    Mirror f s k (g.setChildren x cs) (h.setChildren (f.shift k x) (cs.map (f.shift k))) := by
  refine m.modify hx (fun _ _ t => { t with children := rfl }) (fun _ _ => hc) fun a ha hs => ?_
  simpa [Forest.parent, ha] using m.parent hx hs

end Updates

theorem setParents (m : Mirror f s k g h) (hc : ∀ c ∈ cs, f.Sees s c) (hp : f.Sees s p) :
    Mirror f s k (g.setParents cs p) (h.setParents (cs.map (f.shift k)) (f.shift k p)) := by
  induction cs generalizing g h
  case nil => exact m
  case cons c cs ih =>
    exact ih (m.setParent (hc c (by simp)) hp) fun d hd => hc d (by simp [hd])

theorem link (m : Mirror f s k g h) (hp : f.Sees s p) (hc : ∀ c ∈ cs, f.Sees s c) :
    Mirror f s k (g.link p cs) (h.link (f.shift k p) (cs.map (f.shift k))) :=
  (m.setParents hc hp).setChildren hp cs hc

/- New nodes -/

theorem sees_size (m : Mirror f s k g h) : f.Sees s (some g.size) :=
  sees_of_new fun hn => not_has_size g <| by
    obtain ⟨i, hi, e⟩ := Forest.has_iff.mp hn
    exact Forest.has_iff.mpr ⟨i, Nat.lt_of_lt_of_le hi m.grows, e⟩

theorem shift_size (m : Mirror f s k g h) : f.shift k (some g.size) = some h.size := by
  rw [shift_some, if_neg (Nat.not_lt.mpr m.grows), m.size]

theorem pushNode (m : Mirror f s k g h) {a b : Node} (t : Twin (f.shift k) g.texts h.texts a b)
    (free : a.parent = none ∧ a.children = []) :
    Mirror f s k { g with nodes := g.nodes.push a } { h with nodes := h.nodes.push b } := by
  have size {e : Forest} {n : Node} : Forest.size { e with nodes := e.nodes.push n } = e.size + 1 := by
    simp [Forest.size]
  have node {e : Forest} {n : Node} (i : Nat) :
      Forest.node? { e with nodes := e.nodes.push n } (some i) =
        if i = e.size then some n else e.node? (some i) :=
    Array.getElem?_push
  have same {x : Ref} (hx : x ≠ some g.size) :
      Forest.node? { g with nodes := g.nodes.push a } x = g.node? x := by
    cases x
    case none => rfl
    case some i => rw [node, if_neg fun e => hx (congrArg some e)]
  have new : Forest.node? { g with nodes := g.nodes.push a } (some g.size) = some a := by
    rw [node, if_pos rfl]
  refine ⟨by rw [size, size, m.size]; omega, by rw [size]; exact Nat.le_succ_of_le m.grows, m.files,
    m.docs, fun {x} hx => ?node, fun {x c} hx hc => ?children, fun {x} hx hs => ?parent⟩
  case node =>
    by_cases e : x = some g.size
    case pos =>
      rw [e, new, m.shift_size, node, if_pos rfl]
      exact .some t
    case neg =>
      have ne : f.shift k x ≠ some h.size := fun e' => e (shift_injective (e'.trans m.shift_size.symm))
      have same' : Forest.node? { h with nodes := h.nodes.push b } (f.shift k x) =
          h.node? (f.shift k x) := by
        cases hy : f.shift k x
        case none => rfl
        case some j => rw [node, if_neg fun e => ne (hy.trans (congrArg some e))]
      rw [same e, same']
      exact m.node hx
  case children =>
    by_cases e : x = some g.size
    case pos => simp [Forest.children, e, new, free.right] at hc
    case neg =>
      rw [Forest.children, same e] at hc
      exact m.children hx hc
  case parent =>
    by_cases e : x = some g.size
    case pos => simp [Forest.parent, e, new, free.left]
    case neg =>
      rw [Forest.parent, same e]
      exact m.parent hx hs

theorem push (m : Mirror f s k g h) {a b : Node} (t : Twin (f.shift k) g.texts h.texts a b)
    (free : a.parent = none ∧ a.children = []) (hc : ∀ c ∈ cs, f.Sees s c) :
    MirrorAt f s k (g.push a cs) (h.push b (cs.map (f.shift k))) where
  forest := by
    have linked := (m.pushNode t free).link m.sees_size hc
    rwa [m.shift_size] at linked
  ref    := m.shift_size.symm
  sees   := m.sees_size

theorem add (m : Mirror f s k g h) {kind : Kind} {ds : List Ref} (hk : ¬kind.hasText ∧ kind ≠ .script)
    (refs : ds = cs.map (f.shift k)) (hc : ∀ c ∈ cs, f.Sees s c) :
    MirrorAt f s k (g.add kind cs) (h.add kind ds) :=
  refs ▸ m.push ⟨rfl, rfl, ⟨rfl, rfl⟩, rfl, rfl, rfl, fun h => absurd h hk.left, fun h => absurd h hk.right⟩
    ⟨rfl, rfl⟩ hc

theorem addText (m : Mirror f s k g h) {kind : Kind} (hk : kind ≠ .script) (text : String)
    (hc : ∀ c ∈ cs, f.Sees s c) :
    MirrorAt f s k (g.addText kind text cs) (h.addText kind text (cs.map (f.shift k))) := by
  have push {ts : Array String} {i : Nat} {t : String} (ht : ts[i]? = some t) :
      (ts.push text)[i]? = some t :=
    getElem?_of_append ⟨#[text], Array.push_eq_append⟩ ht
  have m' : Mirror f s k { g with texts := g.texts.push text } { h with texts := h.texts.push text } := by
    refine ⟨m.size, m.grows, m.files, m.docs, fun {x} hx => ?_, m.children, m.parent⟩
    rcases m.cases hx with ⟨ha, hb⟩ | ⟨a, b, ha, hb, t⟩
    · show Option.Rel _ (g.node? x) (h.node? (f.shift k x))
      rw [ha, hb]
      exact .none
    · show Option.Rel _ (g.node? x) (h.node? (f.shift k x))
      rw [ha, hb]
      exact .some (t.mono push push)
  refine m'.push ⟨rfl, rfl, ⟨rfl, rfl⟩, rfl, rfl, rfl, fun _ => .inr ⟨text, ?_, ?_⟩, fun e => absurd e hk⟩
    ⟨rfl, rfl⟩ hc <;> simp

theorem addMember (m : Mirror f s k g h) (name : String) (isStatic : Bool) (hx : f.Sees s x) :
    MirrorAt f s k (g.addMember name isStatic x) (h.addMember name isStatic (f.shift k x)) := by
  have a : MirrorAt f s k (g.addText .memberFunction name [x])
      (h.addText .memberFunction name [f.shift k x]) := m.addText (by simp) name (by simpa using hx)
  have ref := a.ref
  have forest := a.forest
  refine ⟨?_, ref, a.sees⟩
  unfold Forest.addMember
  cases isStatic
  case false => exact forest
  case true =>
    have flagged := forest.addFlags a.sees .static
    rw [← ref] at flagged
    exact flagged

/- Edits -/

section Edits

variable {g' h' : Forest}

theorem detach (m : Mirror f s k g h) (hx : f.Sees s x) (hs : x ≠ s) (hg : g.detach x = .ok g')
    (hh : h.detach (f.shift k x) = .ok h') : Mirror f s k g' h' := by
  obtain ⟨-, -, -, -, rfl⟩ := detach_eq_ok.mp hg
  obtain ⟨-, -, -, -, rfl⟩ := detach_eq_ok.mp hh
  have hp := m.parent hx hs
  rw [m.parent_eq hx, m.children_eq hp, ← List.map_erase shift_injective]
  have less := m.setChildren hp ((g.children (g.parent x)).erase x) fun c hc =>
    m.children hp (List.mem_of_mem_erase hc)
  exact less.setParent hx sees_none

theorem detachChildren (m : Mirror f s k g h) (hx : f.Sees s x)
    (hg : g.detachChildren x = .ok (g', cs)) :
    ∃ h', h.detachChildren (f.shift k x) = .ok (h', cs.map (f.shift k)) ∧ Mirror f s k g' h' ∧
      ∀ c ∈ cs, f.Sees s c := by
  obtain ⟨has, e⟩ := detachChildren_ok hg
  cases e
  have below (c : Ref) (hc : c ∈ g.children x) : f.Sees s c := m.children hx hc
  have bare := (m.setChildren hx [] (by simp)).setParents below sees_none
  rw [shift_none, ← m.children_eq hx] at bare
  refine ⟨_, ?_, bare, below⟩
  rw [Forest.detachChildren, require_eq_ok (u := ()) |>.mpr ((m.has_iff hx).mpr has), ← m.children_eq hx]
  rfl

theorem appendChild (m : Mirror f s k g h) (hp : f.Sees s p) (hc : f.Sees s c)
    (hg : g.appendChild p c = .ok g') (hh : h.appendChild (f.shift k p) (f.shift k c) = .ok h') :
    Mirror f s k g' h' := by
  obtain ⟨-, rfl⟩ := appendChild_eq_ok.mp hg
  obtain ⟨-, rfl⟩ := appendChild_eq_ok.mp hh
  have more := m.setChildren hp (g.children p ++ [c]) fun d hd => by
    rcases List.mem_append.mp hd with hd | hd
    · exact m.children hp hd
    · exact List.mem_singleton.mp hd ▸ hc
  rw [List.map_append, ← m.children_eq hp] at more
  exact more.setParent hc hp

theorem replaceWith (m : Mirror f s k g h) (hx : f.Sees s x) (hs : x ≠ s) (hy : f.Sees s y)
    (hg : g.replaceWith x y = .ok g') (hh : h.replaceWith (f.shift k x) (f.shift k y) = .ok h') :
    Mirror f s k g' h' := by
  obtain ⟨-, hg⟩ := replaceWith_eq_ok.mp hg
  obtain ⟨-, hh⟩ := replaceWith_eq_ok.mp hh
  obtain ⟨-, -, -, rfl⟩ := replaceChild_eq_ok.mp hg
  obtain ⟨-, -, -, rfl⟩ := replaceChild_eq_ok.mp hh
  have hp := m.parent hx hs
  rw [m.parent_eq hx, m.children_eq hp, ← map_replace shift_injective]
  have replaced := m.setChildren hp ((g.children (g.parent x)).replace x y) fun c hc => by
    rcases mem_of_mem_replace hc with hc | rfl
    · exact m.children hp hc
    · exact hy
  exact (replaced.setParent hx sees_none).setParent hy hp

end Edits

/- Trees -/

theorem sees_below (m : Mirror f s k g h) (v : g.Valid) (hc : f.Sees s c) (hn : c ≠ none)
    (hx : g.Contains c x) : f.Sees s x := by
  induction hx
  case refl => exact hc
  case up x above ih => exact m.children ih (v.mem_parent (above.ne_none hn))

theorem contains_iff (m : Mirror f s k g h) (vg : g.Valid) (vh : h.Valid) (hc : f.Sees s c)
    (hn : c ≠ none) : h.Contains (f.shift k c) (f.shift k x) ↔ g.Contains c x := by
  have hn' : f.shift k c ≠ none := shift_eq_none.not.mpr hn
  constructor
  case mpr =>
    intro hx
    induction hx
    case refl => exact .refl
    case up x above ih =>
      have child := vg.mem_parent (above.ne_none hn)
      have child' := List.mem_map_of_mem (f := f.shift k) child
      rw [← m.children_eq (m.sees_below vg hc hn above)] at child'
      exact ih.child (vh.parent_eq child')
  case mp =>
    suffices ∀ {y}, h.Contains (f.shift k c) y → ∃ x, f.shift k x = y ∧ g.Contains c x ∧ f.Sees s x by
      intro hy
      obtain ⟨x', e, hx, -⟩ := this hy
      exact shift_injective e ▸ hx
    intro y hy
    induction hy
    case refl => exact ⟨c, rfl, .refl, hc⟩
    case up y above ih =>
      obtain ⟨x, e, hx, sees⟩ := ih
      have child := vh.mem_parent (above.ne_none hn')
      rw [← e, m.children_eq sees] at child
      obtain ⟨z, hz, rfl⟩ := List.mem_map.mp child
      exact ⟨z, rfl, hx.child (vg.parent_eq hz), m.children sees hz⟩

theorem isWithin_eq (m : Mirror f s k g h) (vg : g.Valid) (vh : h.Valid) (hc : f.Sees s c)
    (hn : c ≠ none) : h.isWithin (f.shift k x) (f.shift k c) = g.isWithin x c := by
  rw [Bool.eq_iff_iff, vh.isWithin_iff (shift_eq_none.not.mpr hn), vg.isWithin_iff hn,
    m.contains_iff vg vh hc hn]

theorem heading_eq (m : Mirror f s k g h) (hx : f.Sees s x) {a b : Node}
    (t : Twin (f.shift k) g.texts h.texts a b) : h.heading (f.shift k x) b = g.heading x a := by
  have label : h.label (f.shift k x) = g.label x := by
    rw [Forest.label, Forest.label, m.isKind_eq hx, m.fileName?_eq hx, m.text?_eq hx]
  rw [heading, heading, label, t.kind, Node.isStatic, t.flags, ← Node.isStatic]

theorem dumpWithin_eq (m : Mirror f s k g h) (hx : f.Sees s x) (depth : Nat) :
    h.dumpWithin depth (f.shift k x) = g.dumpWithin depth x := by
  induction depth generalizing x
  case zero => rfl
  case succ depth ih =>
    rcases m.cases hx with ⟨ha, hb⟩ | ⟨a, b, ha, hb, t⟩ <;> simp only [dumpWithin, ha, hb]
    have below (c : Ref) (hc : c ∈ a.children) : f.Sees s c :=
      m.children hx (by simpa [Forest.children, ha] using hc)
    rw [m.heading_eq hx t, t.children, List.map_map]
    congr 3
    exact List.map_congr_left fun c hc => congrArg (" " ++ ·) (ih (below c hc))

theorem dump_eq (m : Mirror f s k g h) (vg : g.Valid) (hx : f.Sees s x) (hn : x ≠ none) :
    h.dump (f.shift k x) = g.dump x := by
  have shallow := vg.shallow hn
  rw [dump, m.dumpWithin_eq hx, m.size]
  exact Forest.dumpWithin_eq vg (shallow.mono (by omega)) shallow

end Mirror

-- A forest that has the tree below `s` as it is in `f`.
structure Hosts (f h : Forest) (s : Ref) : Prop where
  valid : h.Valid
  size  : f.size ≤ h.size
  node  : ∀ {x}, f.Contains s x → h.node? x = f.node? x
  texts : ∃ more, h.texts = f.texts ++ more
  files : h.files = f.files
  docs  : h.docs = f.docs

namespace Hosts

variable {f g h : Forest} {s x : Ref}

theorem mirror (o : Hosts f h s) (v : f.Valid) : Mirror f s (h.size - f.size) f h := by
  have size : h.size = f.size + (h.size - f.size) := (Nat.add_sub_of_le o.size).symm
  refine ⟨size, Nat.le_refl _, o.files, o.docs, fun {x} hx => ?node, fun {x c} hx hc => ?children,
    fun {x} hx hs hp => ?parent⟩
  case children =>
    exact sees_of_contains ((hx (has_of_mem_children hc)).trans (v.contains_child hc))
  case parent =>
    have attached := (hx (has_of_parent_ne_none hp.ne_none)).parent_of_ne hs
    exact attached
  case node =>
    cases hn : f.node? x
    case none =>
      cases x
      case none => exact .none
      case some i =>
        have big : f.size ≤ i := Nat.le_of_not_lt fun hi => by
          have : f.Has (some i) := Forest.has_iff.mpr ⟨i, hi, rfl⟩
          simp [Has, hn] at this
        have out : h.node? (f.shift (h.size - f.size) (some i)) = none := by
          rw [shift_some, if_neg (Nat.not_lt.mpr big), node?_some]
          exact Array.getElem?_eq_none (by rw [← Forest.size]; omega)
        rw [out]
        exact .none
    case some a =>
      have has : f.Has x := by simp [Has, hn]
      rw [shift_of_has has, o.node (hx has), hn]
      have parent : f.parent x = a.parent := by simp [Forest.parent, hn]
      have children : f.children x = a.children := by simp [Forest.children, hn]
      refine .some ⟨rfl, rfl, ⟨rfl, rfl⟩, rfl, ?parent, ?children, fun hk => ?text, fun _ => rfl⟩
      case parent => rw [shift_of_ref fun hp => parent ▸ v.has_parent (parent ▸ hp)]
      case children =>
        refine (List.map_id _).symm.trans (List.map_congr_left fun c hc => ?_)
        rw [shift_of_ref fun _ => v.has_child (children ▸ hc), id]
      case text =>
        cases hd : a.data
        case none => exact .inl ⟨rfl, rfl⟩
        case some d =>
          have label : f.label? x = some a.bare := by simp [label?, hn]
          have hlt := v.text_lt label hk hd
          have text : f.texts[d]? = some f.texts[d] := Array.getElem?_eq_getElem hlt
          exact .inr ⟨f.texts[d], text, getElem?_of_append o.texts text⟩

theorem kind?_eq (o : Hosts f h s) (hx : f.Contains s x) : h.kind? x = f.kind? x := by
  rw [kind?, o.node hx, ← kind?]

theorem isKind_eq (o : Hosts f h s) (hx : f.Contains s x) (kind : Kind) : h.isKind x kind = f.isKind x kind := by
  rw [isKind, o.kind?_eq hx, ← isKind]

theorem parent_eq (o : Hosts f h s) (hx : f.Contains s x) : h.parent x = f.parent x := by
  rw [Forest.parent, o.node hx, ← Forest.parent]

theorem children_eq (o : Hosts f h s) (hx : f.Contains s x) : h.children x = f.children x := by
  rw [Forest.children, o.node hx, ← Forest.children]

theorem contains_iff (o : Hosts f h s) (v : f.Valid) (hs : s ≠ none) : h.Contains s x ↔ f.Contains s x :=
  (o.valid.contains_iff_of_children v hs fun _ hy => (o.children_eq hy).symm).symm

theorem trans (o : Hosts f g s) (o' : Hosts g h s) (v : f.Valid) (hs : s ≠ none) : Hosts f h s where
  valid   := o'.valid
  size    := Nat.le_trans o.size o'.size
  node hx := (o'.node ((o.contains_iff v hs).mpr hx)).trans (o.node hx)
  texts   := by
    obtain ⟨more, e⟩ := o.texts
    obtain ⟨more', e'⟩ := o'.texts
    exact ⟨more ++ more', by rw [e', e, Array.append_assoc]⟩
  files   := o'.files.trans o.files
  docs    := o'.docs.trans o.docs

theorem dump_eq (o : Hosts f h s) (v : f.Valid) (hs : f.Has s) : h.dump s = f.dump s := by
  have dump := (o.mirror v).dump_eq v (sees_of_contains .refl) hs.ne_none
  rwa [shift_of_has hs] at dump

end Hosts

-- The tree below `s` is the same in both forests, but that the nodes that `f` does not have stand `k`
-- places further on.
def Copies (f : Forest) (s : Ref) (k : Nat) (g h : Forest) : Prop :=
  ∀ x, g.Contains s x → Option.Rel (Twin (f.shift k) g.texts h.texts) (g.node? x) (h.node? (f.shift k x))

theorem Mirror.copies {f g h e : Forest} {s : Ref} {k : Nat} (m : Mirror f s k g h) (vg : g.Valid)
    (hs : f.Has s) (o : Hosts h e s) (vh : h.Valid) : Copies f s k g e := by
  intro x hx
  have root : f.Sees s s := sees_of_contains .refl
  have inside := (m.contains_iff vg vh root hs.ne_none).mpr hx
  rw [shift_of_has hs] at inside
  rw [o.node inside]
  rcases m.cases (m.sees_below vg root hs.ne_none hx) with ⟨ha, hb⟩ | ⟨a, b, ha, hb, t⟩ <;> rw [ha, hb]
  · exact .none
  · exact .some (t.mono id (getElem?_of_append o.texts))

end ClassLift
