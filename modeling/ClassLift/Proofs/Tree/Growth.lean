import ClassLift.Proofs.Tree.Path
import ClassLift.Proofs.Tree.Shape

/-!
Forests that grow. A forest extends another if it has all of its nodes, with the labels that they
had there; then it says the same about their contents. Each way to add a node extends the forest,
and keeps it valid.
-/

namespace ClassLift.Forest

variable {f g h : Forest} {a r p : Ref} {n : Node} {cs : List Ref}

-- What a pool has keeps its place when the pool grows.
theorem getElem?_of_append {ts us : Array String} (h : ∃ more, us = ts ++ more) {i : Nat} {text : String}
    (ht : ts[i]? = some text) : us[i]? = some text := by
  obtain ⟨more, rfl⟩ := h
  rw [Array.getElem?_append_left (Array.getElem?_eq_some_iff.mp ht).1, ht]

theorem Valid.text_lt (v : f.Valid) (hl : f.label? r = some n) (hk : n.kind.hasText) {d : Nat}
    (hd : n.data = some d) : d < f.texts.size := by
  refine v.data hl hd ?_
  unfold poolSize?
  cases hn : n.kind <;> simp_all [Kind.hasText]

structure Extends (g f : Forest) : Prop where
  label : ∀ {r}, f.Has r → g.label? r = f.label? r
  texts : ∃ more, g.texts = f.texts ++ more
  files : g.files = f.files
  docs  : g.docs = f.docs

namespace Extends

theorem refl (f : Forest) : f.Extends f where
  label _ := rfl
  texts   := ⟨#[], by simp⟩
  files   := rfl
  docs    := rfl

theorem has (e : g.Extends f) (hr : f.Has r) : g.Has r := by
  rw [has_iff_label?, e.label hr, ← has_iff_label?]
  exact hr

theorem trans (e₁ : h.Extends g) (e₂ : g.Extends f) : h.Extends f where
  label hr := (e₁.label (e₂.has hr)).trans (e₂.label hr)
  texts    := by
    obtain ⟨more₁, h₁⟩ := e₁.texts
    obtain ⟨more₂, h₂⟩ := e₂.texts
    exact ⟨more₂ ++ more₁, by rw [h₁, h₂, Array.append_assoc]⟩
  files    := e₁.files.trans e₂.files
  docs     := e₁.docs.trans e₂.docs

theorem kind? (e : g.Extends f) (hr : f.Has r) : g.kind? r = f.kind? r := by
  rw [kind?_eq_label?, kind?_eq_label?, e.label hr]

theorem docIndex? (e : g.Extends f) (hr : f.Has r) : g.docIndex? r = f.docIndex? r := by
  rw [docIndex?_eq_label?, docIndex?_eq_label?, e.label hr]

theorem isKind (e : g.Extends f) (hr : f.Has r) (k : Kind) : g.isKind r k = f.isKind r k := by
  rw [Forest.isKind, Forest.isKind, e.kind? hr]

end Extends

theorem text?_eq_label? : f.text? r =
    (f.label? r).bind fun n => if n.kind.hasText then n.data.bind (f.texts[·]?) else none := by
  unfold text? label?
  cases f.node? r <;> rfl

namespace Extends

-- A text that is there keeps its place in the pool.
theorem text? (e : g.Extends f) (v : f.Valid) (hr : f.Has r) : g.text? r = f.text? r := by
  rw [text?_eq_label?, text?_eq_label?, e.label hr]
  cases hl : f.label? r
  case none => rfl
  case some n =>
    by_cases ht : n.kind.hasText
    case neg => simp [ht]
    case pos =>
      cases hd : n.data
      case none => simp [hd]
      case some d =>
        have hlt := v.text_lt hl ht hd
        obtain ⟨more, hm⟩ := e.texts
        simp [ht, hd, hm, Array.getElem?_append_left hlt]

theorem texts_getElem? (e : g.Extends f) {i : Nat} {text : String} (h : f.texts[i]? = some text) :
    g.texts[i]? = some text :=
  getElem?_of_append e.texts h

-- What can be read needs no valid forest to be still there.
theorem text?_of_some (e : g.Extends f) {text : String} (h : f.text? r = some text) :
    g.text? r = some text := by
  rw [text?_eq_label?] at h ⊢
  obtain ⟨n, label, read⟩ := Option.bind_eq_some_iff.mp h
  rw [e.label (has_iff_label?.mpr (by simp [label])), label, Option.bind_some]
  split at read
  case isFalse => cases read
  case isTrue isText =>
    obtain ⟨i, data, read⟩ := Option.bind_eq_some_iff.mp read
    rw [if_pos isText, data, Option.bind_some, e.texts_getElem? read]

theorem identifierText? (e : g.Extends f) (v : f.Valid) (hr : f.Has r) :
    g.identifierText? r = f.identifierText? r := by
  rw [Forest.identifierText?, Forest.identifierText?, e.isKind hr, e.text? v hr]

end Extends

/- Marks -/

-- At most the label of one node differs.
structure Relabels (g f : Forest) (p : Ref) : Prop where
  parent   : ∀ r, g.parent r = f.parent r
  children : ∀ r, g.children r = f.children r
  label    : ∀ {r}, r ≠ p → g.label? r = f.label? r
  has      : ∀ r, g.Has r ↔ f.Has r
  texts    : g.texts = f.texts
  files    : g.files = f.files
  docs     : g.docs = f.docs

namespace Relabels

theorem refl : f.Relabels f p where
  parent _   := rfl
  children _ := rfl
  label _    := rfl
  has _      := .rfl
  texts      := rfl
  files      := rfl
  docs       := rfl

theorem modify {mark : Node → Node} (hp : ∀ n, (mark n).parent = n.parent)
    (hc : ∀ n, (mark n).children = n.children) : (f.modify p mark).Relabels f p where
  parent _   := parent_modify hp
  children _ := children_modify hc
  label hr   := label?_modify_of_ne _ _ (Ne.symm hr)
  has _      := has_modify ..
  texts      := texts_modify ..
  files      := files_modify ..
  docs       := docs_modify ..

theorem addFlags (f : Forest) (p : Ref) (flags : Flags) : (f.addFlags p flags).Relabels f p :=
  .modify (fun _ => rfl) (fun _ => rfl)

theorem setDoc (f : Forest) (p : Ref) (doc : Option Nat) : (f.setDoc p doc).Relabels f p :=
  .modify (fun _ => rfl) (fun _ => rfl)

theorem setSpan (f : Forest) (p : Ref) (pos stop : UInt32) :
    (f.setSpan p pos stop).Relabels f p :=
  .modify (fun _ => rfl) (fun _ => rfl)

theorem copySpan (f : Forest) (source p : Ref) : (f.copySpan source p).Relabels f p := by
  unfold Forest.copySpan
  split
  · exact setSpan ..
  · exact refl

end Relabels

@[simp]
theorem texts_copySpan (f : Forest) (source p : Ref) : (f.copySpan source p).texts = f.texts :=
  Relabels.texts (.copySpan f source p)

@[simp]
theorem texts_addFlags (f : Forest) (p : Ref) (flags : Flags) : (f.addFlags p flags).texts = f.texts :=
  texts_modify ..

@[simp]
theorem texts_setDoc (f : Forest) (p : Ref) (doc : Option Nat) : (f.setDoc p doc).texts = f.texts :=
  texts_modify ..

theorem label?_addFlags (f : Forest) (p : Ref) (flags : Flags) :
    (f.addFlags p flags).label? p =
      (f.label? p).map fun n => { n with flags := n.flags.union flags } := by
  unfold addFlags label?
  rw [node?_modify_self]
  cases f.node? p <;> rfl

theorem label?_setDoc (f : Forest) (p : Ref) (doc : Option Nat) :
    (f.setDoc p doc).label? p = (f.label? p).map ({ · with doc }) := by
  unfold setDoc label?
  rw [node?_modify_self]
  cases f.node? p <;> rfl

theorem label?_copySpan {source : Ref} (hn : f.label? source = some n) :
    (f.copySpan source p).label? p =
      (f.label? p).map ({ · with pos := n.pos, stop := n.stop }) := by
  obtain ⟨m, hm, rfl⟩ := Option.map_eq_some_iff.mp hn
  unfold copySpan setSpan label?
  rw [hm, node?_modify_self]
  cases f.node? p <;> rfl

theorem Valid.relabel (v : f.Valid) (e : g.Relabels f p)
    (hdata : ∀ {n d s}, g.label? p = some n → n.data = some d → g.poolSize? n.kind = some s → d < s)
    (hdoc : ∀ {d}, g.docIndex? p = some d → d < f.docs.size) : g.Valid where
  mem_children := by simp [e.children, e.parent, v.mem_children]
  nodup q := e.children q ▸ v.nodup q
  rooted r := (contains_congr fun x _ _ => e.parent x).mpr (v.rooted r)
  data {r n d s} hl hd hs := by
    by_cases hr : r = p
    case pos => exact hdata (hr ▸ hl) hd hs
    case neg => exact v.data (e.label hr ▸ hl) hd (by simpa [poolSize?, e.texts, e.files] using hs)
  doc {r d} hd := by
    rw [e.docs]
    by_cases hr : r = p
    case pos => exact hdoc (hr ▸ hd)
    case neg =>
      rw [docIndex?_eq_label?, e.label hr, ← docIndex?_eq_label?] at hd
      exact v.doc hd

/- New nodes -/

-- A chain that is changed only by links to chains with an end has one.
theorem Rooted.transfer (hr : f.Rooted r)
    (hp : ∀ x, f.Contains x r → x ≠ none → g.Rooted (g.parent x) ∨ g.parent x = f.parent x) :
    g.Rooted r := by
  induction hr using Rooted.downward
  case top => exact rooted_none
  case below r _ hn ih =>
    rcases hp r .refl hn with h | h
    · exact .up h
    · exact .up <| h ▸ ih fun x hx => hp x hx.up

-- The tree of `p` keeps its root when nodes that `p` does not lie below are put below it.
theorem rooted_of_attach (cs : List Ref) (p : Ref) (v : ∀ r, f.Rooted r) (hcs : ∀ c ∈ cs, ¬f.Contains c p)
    (hin : ∀ c ∈ cs, g.parent c = p)
    (hout : ∀ c ∉ cs, g.parent c = none ∨ g.parent c = f.parent c) : ∀ r, g.Rooted r := by
  have stay {x : Ref} (hx : x ∉ cs) : g.Rooted (g.parent x) ∨ g.parent x = f.parent x :=
    (hout x hx).imp_left fun (e : g.parent x = none) => by rw [e]; exact rooted_none
  have hp : g.Rooted p := (v p).transfer fun x hx _ => stay fun hm => hcs x hm hx
  intro r
  refine (v r).transfer fun x _ _ => ?_
  by_cases hx : x ∈ cs
  case pos => exact .inl (hin x hx ▸ hp)
  case neg => exact stay hx

section Push

variable (f n cs)

@[simp]
theorem push_ref : (f.push n cs).2 = some f.size := rfl

theorem node?_put : { f with nodes := f.nodes.push n : Forest }.node? r =
    if r = some f.size then some n else f.node? r := by
  cases r
  case none => simp
  case some i => simp [Array.getElem?_push, size]

theorem has_put : { f with nodes := f.nodes.push n : Forest }.Has r ↔ r = some f.size ∨ f.Has r := by
  unfold Has
  rw [node?_put]
  by_cases hr : r = some f.size <;> simp [hr]

theorem has_push : (f.push n cs).1.Has r ↔ r = some f.size ∨ f.Has r := by
  simp [push, link, has_put]

theorem label?_push : (f.push n cs).1.label? r =
    if r = some f.size then some n.bare else f.label? r := by
  simp only [push, link, label?_setChildren, label?_setParents]
  unfold label?
  rw [node?_put]
  split <;> rfl

theorem children_push : (f.push n cs).1.children r =
    if r = some f.size then cs else f.children r := by
  simp only [push, link]
  rw [children_setChildren (by simp [has_put]), children_setParents]
  split
  case isTrue => rfl
  case isFalse hr => simp [children, node?_put, hr]

theorem texts_push : (f.push n cs).1.texts = f.texts := by
  simp [push, link]

theorem files_push : (f.push n cs).1.files = f.files := by
  simp [push, link]

theorem docs_push : (f.push n cs).1.docs = f.docs := by
  simp [push, link]

variable {f n cs}

theorem parent_push (hn : n.parent = none) (hcs : ∀ c ∈ cs, f.Has c) :
    (f.push n cs).1.parent r = if r ∈ cs then some f.size else f.parent r := by
  simp only [push, link, parent_setChildren]
  rw [parent_setParents fun c hc => (has_put f n).mpr (.inr (hcs c hc))]
  split
  case isTrue => rfl
  case isFalse =>
    unfold parent
    rw [node?_put]
    split
    case isTrue hr => simp [hr, hn, node?, size]
    case isFalse => rfl

end Push

theorem extends_push (f : Forest) (n : Node) (cs : List Ref) : (f.push n cs).1.Extends f where
  label {r} hr := by
    rw [label?_push, if_neg]
    rintro rfl
    exact not_has_size f hr
  texts    := ⟨#[], by simp [texts_push]⟩
  files    := files_push ..
  docs     := docs_push ..

theorem extends_addText (f : Forest) (kind : Kind) (text : String) (cs : List Ref) :
    (f.addText kind text cs).1.Extends f :=
  (extends_push { f with texts := f.texts.push text } _ cs).trans
    ⟨fun _ => rfl, ⟨#[text], by simp⟩, rfl, rfl⟩

theorem lt_size_push (f : Forest) (n : Node) (cs : List Ref) : f.size < (f.push n cs).1.size := by
  have ⟨i, small, same⟩ := has_iff.mp ((has_push f n cs).mpr (.inl rfl))
  cases same
  exact small

theorem children_push_of_has (hr : f.Has r) : (f.push n cs).1.children r = f.children r := by
  rw [children_push, if_neg]
  rintro rfl
  exact not_has_size f hr

theorem lt_size_addText (f : Forest) (kind : Kind) (text : String) (cs : List Ref) :
    f.size < (f.addText kind text cs).1.size :=
  lt_size_push { f with texts := f.texts.push text } _ cs

theorem children_addText_of_has {kind : Kind} {text : String} (hr : f.Has r) :
    (f.addText kind text cs).1.children r = f.children r :=
  children_push_of_has (f := { f with texts := f.texts.push text }) hr

-- What a valid forest asks of a new node and of the trees that are to hang below it.
structure Fresh (f : Forest) (n : Node) (cs : List Ref) : Prop where
  bare    : n.bare = n
  has     : ∀ c ∈ cs, f.Has c
  free    : ∀ c ∈ cs, f.parent c = none
  nodup   : cs.Nodup
  data    : ∀ {d s}, n.data = some d → f.poolSize? n.kind = some s → d < s
  doc     : ∀ {d}, n.doc = some d → d < f.docs.size

namespace Fresh

theorem parent_eq (h : f.Fresh n cs) : n.parent = none :=
  h.bare ▸ rfl

theorem parent_push (h : f.Fresh n cs) :
    (f.push n cs).1.parent r = if r ∈ cs then some f.size else f.parent r :=
  Forest.parent_push h.parent_eq h.has

theorem valid_push (h : f.Fresh n cs) (v : f.Valid) : (f.push n cs).1.Valid where
  mem_children {r p} := by
    rw [children_push, h.parent_push]
    have new : ¬f.parent r = some f.size := fun e =>
      not_has_size f <| e ▸ v.has_parent (by simp [e])
    by_cases hp : p = some f.size
    case pos => by_cases hr : r ∈ cs <;> simp [hp, hr, new]
    case neg =>
      by_cases hr : r ∈ cs
      case pos => simp [hp, hr, v.mem_children, h.free r hr, Ne.symm hp, eq_comm]
      case neg => simp [hp, hr, v.mem_children]
  nodup p := by
    rw [children_push]
    split
    · exact h.nodup
    · exact v.nodup p
  rooted := rooted_of_attach cs (some f.size) v.rooted
    (fun c hc hn => by
      have e : f.parent (some f.size) = none := parent_of_not_has (not_has_size f)
      rcases hn.cases_up with hn | hn
      · exact not_has_size f (hn ▸ h.has c hc)
      · exact (h.has c hc).ne_none (e ▸ hn).eq_none)
    (fun c hc => by simp [h.parent_push, hc])
    (fun c hc => by simp [h.parent_push, hc])
  data {r m d s} hl hd hs := by
    rw [label?_push] at hl
    rw [show (f.push n cs).1.poolSize? m.kind = f.poolSize? m.kind by
      simp [poolSize?, texts_push, files_push]] at hs
    split at hl
    case isTrue =>
      cases hl
      exact h.data hd hs
    case isFalse => exact v.data hl hd hs
  doc {r d} hd := by
    rw [docs_push]
    rw [docIndex?_eq_label?, label?_push] at hd
    split at hd
    case isTrue => exact h.doc hd
    case isFalse => exact v.doc (docIndex?_eq_label? ▸ hd)

end Fresh

/- One more node -/

-- Trees of a forest, one beside the other.
structure Loose (f : Forest) (cs : List Ref) : Prop where
  has   : ∀ c ∈ cs, f.Has c
  free  : ∀ c ∈ cs, f.parent c = none
  nodup : cs.Nodup

theorem Loose.nil : f.Loose [] := by
  constructor <;> simp

theorem Loose.perm (l : f.Loose cs) {ds : List Ref} (h : ds.Perm cs) : f.Loose ds where
  has c hc  := l.has c (h.mem_iff.mp hc)
  free c hc := l.free c (h.mem_iff.mp hc)
  nodup     := h.nodup_iff.mpr l.nodup

theorem Loose.sublist (l : f.Loose cs) {ds : List Ref} (h : ds.Sublist cs) : f.Loose ds where
  has c hc  := l.has c (h.subset hc)
  free c hc := l.free c (h.subset hc)
  nodup     := l.nodup.sublist h

-- `g` is `f` with one more node, which some trees of `f` hang below.
structure Adds (f g : Forest) (r : Ref) (n : Node) (cs : List Ref) : Prop where
  ref      : r = some f.size
  loose    : f.Loose cs
  valid    : g.Valid
  ext      : g.Extends f
  has      : ∀ x, g.Has x ↔ x = r ∨ f.Has x
  label    : g.label? r = some n
  children : ∀ x, g.children x = if x = r then cs else f.children x
  parent   : ∀ x, g.parent x = if x ∈ cs then r else f.parent x

namespace Adds

theorem not_has (d : f.Adds g r n cs) : ¬f.Has r :=
  d.ref ▸ not_has_size f

theorem has_ref (d : f.Adds g r n cs) : g.Has r :=
  (d.has r).mpr (.inl rfl)

theorem ne_ref (d : f.Adds g r n cs) (hp : f.Has p) : p ≠ r := fun e =>
  d.not_has (e ▸ hp)

theorem children_ref (d : f.Adds g r n cs) : g.children r = cs := by
  rw [d.children, if_pos rfl]

theorem children_of_has (d : f.Adds g r n cs) (hp : f.Has p) : g.children p = f.children p := by
  rw [d.children, if_neg (d.ne_ref hp)]

theorem kind?_ref (d : f.Adds g r n cs) : g.kind? r = some n.kind := by
  rw [kind?_eq_label?, d.label, Option.map_some]

theorem not_mem (d : f.Adds g r n cs) : r ∉ cs := fun h =>
  d.not_has (d.loose.has r h)

theorem free (d : f.Adds g r n cs) : g.parent r = none := by
  rw [d.parent, if_neg d.not_mem, parent_of_not_has d.not_has]

-- The new tree stands for those below it, and the others stay beside it.
theorem exchange (d : f.Adds g r n cs) (ds es : List Ref) (l : f.Loose (ds ++ (cs ++ es))) :
    g.Loose (ds ++ r :: es) := by
  have ⟨_, hn, hd⟩ := List.nodup_append'.mp l.nodup
  have ⟨_, _, he⟩ := List.nodup_append'.mp hn
  have other {c : Ref} (hc : c ∈ ds ∨ c ∈ es) : f.Has c ∧ f.parent c = none ∧ c ∉ cs := by
    have hm : c ∈ ds ++ (cs ++ es) := by
      simp only [List.mem_append]
      tauto
    refine ⟨l.has c hm, l.free c hm, fun h => ?_⟩
    rcases hc with hc | hc
    · exact hd hc (List.mem_append_left _ h)
    · exact he h hc
  refine ⟨fun c hc => ?has, fun c hc => ?free, ?nodup⟩
  case has =>
    rcases List.mem_append.mp hc with hc | hc
    · exact d.ext.has (other (.inl hc)).left
    · cases hc
      case head => exact d.has_ref
      case tail hc => exact d.ext.has (other (.inr hc)).left
  case free =>
    have stay (hc : c ∈ ds ∨ c ∈ es) : g.parent c = none := by
      have ⟨_, hp, hn⟩ := other hc
      rw [d.parent, if_neg hn, hp]
    rcases List.mem_append.mp hc with hc | hc
    · exact stay (.inl hc)
    · cases hc
      case head => exact d.free
      case tail hc => exact stay (.inr hc)
  case nodup =>
    refine List.nodup_middle.mpr <| List.nodup_cons.mpr ⟨fun h => ?_, ?_⟩
    · exact d.not_has (other (List.mem_append.mp h)).left
    · exact l.nodup.sublist <| (List.sublist_append_right cs es).append_left ds

theorem mark (d : f.Adds g r n cs) (e : h.Relabels g r) {m : Node} (hl : h.label? r = some m)
    (hdata : m.kind = n.kind ∧ m.data = n.data) (hdoc : ∀ {i}, m.doc = some i → i < f.docs.size) :
    f.Adds h r m cs where
  ref        := d.ref
  loose      := d.loose
  valid      := d.valid.relabel e
    (fun hl' hd hs => by
      cases hl.symm.trans hl'
      simp only [poolSize?, e.texts, e.files] at hs
      exact d.valid.data d.label (hdata.right ▸ hd) (by simpa [poolSize?, hdata.left] using hs))
    (fun hd => by
      rw [docIndex?_eq_label?, hl] at hd
      exact d.ext.docs ▸ hdoc hd)
  ext        := {
    label hr := (e.label (d.ne_ref hr)).trans (d.ext.label hr)
    texts    := e.texts ▸ d.ext.texts
    files    := e.files.trans d.ext.files
    docs     := e.docs.trans d.ext.docs }
  has x      := (e.has x).trans (d.has x)
  label      := hl
  children x := (e.children x).trans (d.children x)
  parent x   := (e.parent x).trans (d.parent x)

-- Nothing is put below a node that was there.
theorem contains_iff (d : f.Adds g r n cs) (v : f.Valid) {x : Ref} (ha : f.Has a) :
    g.Contains a x ↔ f.Contains a x :=
  (d.valid.contains_iff_of_children v ha.ne_none fun _ hy =>
    (d.children_of_has (hy.has ha)).symm).symm

theorem doc_lt (d : f.Adds g r n cs) {doc : Nat} (hd : n.doc = some doc) : doc < f.docs.size := by
  rw [← d.ext.docs]
  exact d.valid.doc (r := r) <| by rw [docIndex?_eq_label?, d.label, Option.bind_some, hd]

theorem copySpan (d : f.Adds g r n cs) {source : Ref} {m : Node} (hm : f.label? source = some m) :
    f.Adds (g.copySpan source r) r { n with pos := m.pos, stop := m.stop } cs := by
  have hg : g.label? source = some m := (d.ext.label (has_iff_label?.mpr (by simp [hm]))).trans hm
  refine d.mark (.copySpan g source r) ?_ ⟨rfl, rfl⟩ d.doc_lt
  rw [label?_copySpan hg, d.label, Option.map_some]

theorem addFlags (d : f.Adds g r n cs) (flags : Flags) :
    f.Adds (g.addFlags r flags) r { n with flags := n.flags.union flags } cs := by
  refine d.mark (.addFlags g r flags) ?_ ⟨rfl, rfl⟩ d.doc_lt
  rw [label?_addFlags, d.label, Option.map_some]

theorem setDoc (d : f.Adds g r n cs) (doc : Option Nat) (h : ∀ {i}, doc = some i → i < f.docs.size) :
    f.Adds (g.setDoc r doc) r { n with doc } cs := by
  refine d.mark (.setDoc g r doc) ?_ ⟨rfl, rfl⟩ h
  rw [label?_setDoc, d.label, Option.map_some]

end Adds

theorem adds_add (v : f.Valid) (l : f.Loose cs) (kind : Kind) :
    f.Adds (f.add kind cs).1 (f.add kind cs).2 { kind } cs :=
  have fresh : f.Fresh { kind } cs := {
    bare  := rfl
    has   := l.has
    free  := l.free
    nodup := l.nodup
    data  := by simp
    doc   := by simp }
  { ref        := rfl
    loose      := l
    valid      := fresh.valid_push v
    ext        := extends_push ..
    has _      := has_push ..
    label      := (label?_push ..).trans (if_pos rfl)
    children _ := children_push ..
    parent _   := fresh.parent_push }

-- Pools that are larger have all that the nodes refer to.
theorem Valid.enlarge (v : f.Valid) (nodes : g.nodes = f.nodes) (texts : f.texts.size ≤ g.texts.size)
    (files : f.files.size ≤ g.files.size) (docs : f.docs.size ≤ g.docs.size) : g.Valid := by
  have node (r : Ref) : g.node? r = f.node? r := by rw [node?, node?, nodes]
  have parent (r : Ref) : g.parent r = f.parent r := by rw [Forest.parent, Forest.parent, node]
  have children (r : Ref) : g.children r = f.children r := by rw [Forest.children, Forest.children, node]
  refine ⟨fun {r p} => ?_, fun p => ?_, fun r => ?_, fun {r n d s} hl hd hs => ?data, fun {r d} hd => ?doc⟩
  · rw [children, parent, v.mem_children]
  · exact children p ▸ v.nodup p
  · exact (v.rooted r).transfer fun x _ _ => .inr (parent x)
  case data =>
    have hl : f.label? r = some n := by rw [label?, ← node]; exact hl
    unfold poolSize? at hs
    split at hs
    case isTrue hk =>
      cases hs
      exact Nat.lt_of_lt_of_le (v.data hl hd (by simp [poolSize?, hk])) files
    case isFalse hk =>
      split at hs
      case isTrue ht =>
        cases hs
        exact Nat.lt_of_lt_of_le (v.data hl hd (by simp [poolSize?, hk, ht])) texts
      case isFalse => cases hs
  case doc =>
    rw [docIndex?, node] at hd
    exact Nat.lt_of_lt_of_le (v.doc hd) docs

theorem adds_addText (v : f.Valid) (l : f.Loose cs) (kind : Kind) (hk : kind.hasText)
    (text : String) :
    f.Adds (f.addText kind text cs).1 (f.addText kind text cs).2
        { kind, data := some f.texts.size } cs ∧
      (f.addText kind text cs).1.texts = f.texts.push text := by
  let f' : Forest := { f with texts := f.texts.push text }
  have v' : f'.Valid := v.enlarge rfl (by simp [f']) (Nat.le_refl _) (Nat.le_refl _)
  have fresh : f'.Fresh { kind, data := some f.texts.size } cs := {
    bare  := rfl
    has   := l.has
    free  := l.free
    nodup := l.nodup
    data  := by
      intro d s hd hs
      cases hd
      have : s = f.texts.size + 1 := by
        unfold poolSize? at hs
        cases kind <;> simp_all [Kind.hasText, f']
      omega
    doc   := by simp }
  refine ⟨⟨rfl, l, fresh.valid_push v', ?ext, fun _ => has_push .., ?label,
    fun _ => children_push .., fun _ => fresh.parent_push⟩, texts_push ..⟩
  case label => exact (label?_push ..).trans (if_pos rfl)
  case ext => exact extends_addText ..

theorem adds_addMember (v : f.Valid) {function : Ref} (l : f.Loose [function]) (name : String)
    (isStatic : Bool) :
    f.Adds (f.addMember name isStatic function).1 (f.addMember name isStatic function).2 {
        kind := .memberFunction, flags := if isStatic then .static else {},
        data := some f.texts.size } [function] ∧
      (f.addMember name isStatic function).1.texts = f.texts.push name := by
  have ⟨d, ht⟩ := adds_addText v l .memberFunction rfl name
  cases isStatic
  case false => exact ⟨d, ht⟩
  case true =>
    have d := d.addFlags .static
    rw [Flags.empty_union] at d
    exact ⟨d, ht⟩

theorem Adds.text? (d : f.Adds g r n cs) (hk : n.kind.hasText)
    (hd : n.data = some f.texts.size) {text : String} (ht : g.texts = f.texts.push text) :
    g.text? r = some text := by
  simp [text?_eq_label?, d.label, hk, hd, ht]

/- Trees beside those that are there -/

-- A node of a name or of a path, or one that stands where nothing is.
structure IsSprout (f : Forest) (r : Ref) : Prop where
  kind   : ∃ k ∈ [Kind.empty, .identifier, .propertyAccess], f.kind? r = some k
  formed : f.isFormed r

namespace IsSprout

theorem kind_ne {k : Kind} (s : f.IsSprout r)
    (hn : k ∉ [Kind.empty, .identifier, .propertyAccess]) : f.kind? r ≠ some k := by
  obtain ⟨k', hk', e⟩ := s.kind
  rintro h
  exact hn (Option.some.inj (e.symm.trans h) ▸ hk')

theorem extend (s : f.IsSprout r) (v : f.Valid) (e : g.Extends f) (hc : g.children r = f.children r) :
    g.IsSprout r := by
  obtain ⟨k, hk, hr⟩ := s.kind
  have kind := (e.kind? (has_of_kind? hr)).trans hr
  refine ⟨⟨k, hk, kind⟩, isFormed_iff.mpr fun k' hk' => ?_⟩
  cases kind.symm.trans hk'
  have kinds : (f.children r).map g.kind? = (f.children r).map f.kind? :=
    List.map_congr_left fun c h => e.kind? (v.has_child h)
  rw [hc, kinds]
  exact accepts_of_formed s.formed hr

end IsSprout

theorem Adds.isSprout (d : f.Adds g r n cs) (hn : n.kind ∈ [Kind.empty, .identifier, .propertyAccess])
    (ha : n.kind.accepts (cs.map f.kind?)) : g.IsSprout r := by
  refine ⟨⟨_, hn, d.kind?_ref⟩, isFormed_iff.mpr fun k hk => ?_⟩
  cases d.kind?_ref.symm.trans hk
  have kinds : cs.map g.kind? = cs.map f.kind? :=
    List.map_congr_left fun c hc => d.ext.kind? (d.loose.has c hc)
  rw [d.children_ref, kinds]
  exact ha

-- `g` is `f` with new trees that have nothing to do with those of `f`.
structure Grows (f g : Forest) : Prop where
  valid    : g.Valid
  ext      : g.Extends f
  children : ∀ {r}, f.Has r → g.children r = f.children r
  parent   : ∀ {r}, f.Has r → g.parent r = f.parent r
  fresh    : ∀ {r}, ¬f.Has r → ∀ c ∈ g.children r, ¬f.Has c
  sprouts  : ∀ {r}, ¬f.Has r → g.Has r → g.IsSprout r

namespace Grows

theorem refl (v : f.Valid) : f.Grows f where
  valid      := v
  ext        := .refl f
  children _ := rfl
  parent _   := rfl
  fresh hr _ hc := absurd (has_of_mem_children hc) hr
  sprouts hr h := absurd h hr

theorem add (e : f.Grows g) (d : g.Adds h r n cs) (hcs : ∀ c ∈ cs, ¬f.Has c)
    (hn : n.kind ∈ [Kind.empty, .identifier, .propertyAccess])
    (ha : n.kind.accepts (cs.map g.kind?)) : f.Grows h where
  valid      := d.valid
  ext        := d.ext.trans e.ext
  children {x} hx := by
    rw [d.children, if_neg (d.ne_ref (e.ext.has hx)), e.children hx]
  parent {x} hx := by
    rw [d.parent, if_neg fun hm => hcs x hm hx, e.parent hx]
  fresh {x} hx c hc := by
    rw [d.children] at hc
    split at hc
    · exact hcs c hc
    · exact e.fresh hx c hc
  sprouts {x} hx hh := by
    rcases (d.has x).mp hh with rfl | hg
    · exact d.isSprout hn ha
    · exact (e.sprouts hx hg).extend e.valid d.ext (d.children_of_has hg)

theorem trans (e₁ : f.Grows g) (e₂ : g.Grows h) : f.Grows h where
  valid       := e₂.valid
  ext         := e₂.ext.trans e₁.ext
  children hr := (e₂.children (e₁.ext.has hr)).trans (e₁.children hr)
  parent hr   := (e₂.parent (e₁.ext.has hr)).trans (e₁.parent hr)
  fresh {r} hr c hc hfc := by
    by_cases hg : g.Has r
    case pos => exact e₁.fresh hr c (e₂.children hg ▸ hc) hfc
    case neg => exact e₂.fresh hg c hc (e₁.ext.has hfc)
  sprouts {r} hr hh := by
    by_cases hg : g.Has r
    case pos => exact (e₁.sprouts hr hg).extend e₁.valid e₂.ext (e₂.children hg)
    case neg => exact e₂.sprouts hg hh

end Grows

-- One of the new trees begins at `r`.
structure Sprouts (f g : Forest) (r : Ref) : Prop where
  grows : f.Grows g
  has   : g.Has r
  new   : ¬f.Has r
  free  : g.parent r = none

namespace Sprouts

theorem of_add (e : f.Grows g) (d : g.Adds h r n cs) (hcs : ∀ c ∈ cs, ¬f.Has c)
    (hn : n.kind ∈ [Kind.empty, .identifier, .propertyAccess])
    (ha : n.kind.accepts (cs.map g.kind?)) : f.Sprouts h r where
  grows := e.add d hcs hn ha
  has   := d.has_ref
  new   := fun hr => d.not_has <| e.ext.has hr
  free  := d.free

-- Trees of `f` are still beside each other, and beside the new one.
theorem beside (s : f.Sprouts g r) (l : f.Loose cs) : g.Loose (r :: cs) where
  has   := List.forall_mem_cons.mpr ⟨s.has, fun c hc => s.grows.ext.has (l.has c hc)⟩
  free  := List.forall_mem_cons.mpr
    ⟨s.free, fun c hc => (s.grows.parent (l.has c hc)).trans (l.free c hc)⟩
  nodup := List.nodup_cons.mpr ⟨fun hr => s.new (l.has r hr), l.nodup⟩

theorem loose (s : f.Sprouts g r) : g.Loose [r] :=
  s.beside .nil

end Sprouts

end ClassLift.Forest
