import ClassLift.Proofs.Tree.Mirror
import ClassLift.Proofs.Tree.Path
import Mathlib.Data.Set.Function

/-!
What a dump tells of a tree. If no text has a blank or a parenthesis in it, a dump is read in only one
way, so that trees with the same dump are the same but for the numbers of their nodes.
-/

namespace ClassLift

-- The kinds that have something after their name in a dump.
def Kind.isLabelled (k : Kind) : Bool :=
  k.hasText || k == .script

def IsParenthesis (c : Char) : Prop :=
  c = '(' ∨ c = ')'

instance (c : Char) : Decidable (IsParenthesis c) :=
  inferInstanceAs (Decidable (_ ∨ _))

-- A text that cannot be taken for a part of the dump around it. It may be empty.
def IsPlain (text : String) : Prop :=
  ∀ c ∈ text.toList, c ≠ ' ' ∧ ¬IsParenthesis c

instance (text : String) : Decidable (IsPlain text) :=
  List.decidableBAll _ _

/- Texts -/

variable {s t w w' : List Char}

-- Two texts end at the same place if neither goes on where a stop is.
theorem append_inj_of_stops {p : Char → Prop} (hw : ∀ c ∈ w, ¬p c) (hw' : ∀ c ∈ w', ¬p c)
    (hs : ∀ c ∈ s.head?, p c) (ht : ∀ c ∈ t.head?, p c) (h : w ++ s = w' ++ t) : w = w' ∧ s = t := by
  obtain ⟨more, rfl, rfl⟩ | ⟨more, rfl, rfl⟩ := List.append_eq_append_iff.mp h
  all_goals
    cases more
    case nil => simp
    case cons c more => simp_all

-- What follows the name of the kind in a dump.
def trailer (isStatic : Bool) (label : Option String) : List Char :=
  (if isStatic then " static".toList else []) ++ label.elim [] (' ' :: ·.toList)

theorem head?_trailer {isStatic : Bool} {label : Option String} :
    ∀ c ∈ (trailer isStatic label).head?, c = ' ' := by
  cases isStatic <;> cases label <;> simp [trailer]

theorem IsPlain.ne_append {text : String} {after : List Char} (plain : IsPlain text) (before : List Char) :
    text.toList ≠ before ++ ' ' :: after := fun e =>
  (plain ' ' (by simp [e])).left rfl

-- A member named `static` is not taken for a static one, since names have no blanks.
theorem trailer_inj {isStatic isStatic' : Bool} {text text' : String} (plain : IsPlain text)
    (plain' : IsPlain text') (h : trailer isStatic (some text) = trailer isStatic' (some text')) :
    isStatic = isStatic' ∧ text = text' := by
  cases isStatic <;> cases isStatic' <;> simp [trailer] at h
  case false.false => exact ⟨rfl, String.toList_inj.mp h⟩
  case true.true   => exact ⟨rfl, String.toList_inj.mp h⟩
  case false.true  => exact absurd h (plain.ne_append "static".toList)
  case true.false  => exact absurd h.symm (plain'.ne_append "static".toList)

theorem isPlain_name (k : Kind) : IsPlain k.name := by
  cases k <;> simp [IsPlain, IsParenthesis, Kind.name]

theorem name_injective : Kind.name.Injective := by
  intro k k' h
  have := Kind.ofName?_name k
  rw [h, Kind.ofName?_name] at this
  exact (Option.some.inj this).symm

namespace Forest

-- The text or file name that a node can have is there, and is plain.
structure IsLegible (f : Forest) (x : Ref) : Prop where
  text : ∀ k ∈ f.kind? x, k.hasText → ∃ t ∈ f.text? x, IsPlain t
  file : f.kind? x = some .script → ∃ t ∈ f.fileName? x, IsPlain t

instance (f : Forest) (x : Ref) : Decidable (f.IsLegible x) :=
  decidable_of_iff (_ ∧ _) ⟨fun h => ⟨h.left, h.right⟩, fun h => ⟨h.text, h.file⟩⟩

def Legible (f : Forest) (a : Ref) : Prop :=
  ∀ x, f.Contains a x → f.IsLegible x

theorem legible_of_all {f : Forest} (h : ∀ i < f.size, f.IsLegible (some i)) (a : Ref) : f.Legible a := by
  intro x _
  by_cases hx : f.Has x
  case pos =>
    obtain ⟨i, hi, rfl⟩ := has_iff.mp hx
    exact h i hi
  case neg =>
    have hk : f.kind? x = none := by simpa [Has, kind?] using hx
    exact ⟨by simp [hk], by simp [hk]⟩

-- Two nodes that are the same, apart from what is below them.
structure Alike (f g : Forest) (x y : Ref) : Prop where
  kind   : g.kind? y = f.kind? x
  text   : g.text? y = f.text? x
  file   : g.fileName? y = f.fileName? x
  static : g.isStaticMember y = f.isStaticMember x

-- The nodes of the one tree stand for those of the other, with the same children in the same order.
structure Isomorphism (f g : Forest) (a b : Ref) (image : Ref → Ref) : Prop where
  root     : image a = b
  bijOn    : Set.BijOn image {x | f.Contains a x} {y | g.Contains b y}
  alike    : ∀ {x}, f.Contains a x → f.Alike g x (image x)
  children : ∀ {x}, f.Contains a x → g.children (image x) = (f.children x).map image

variable {f g : Forest} {a b x y : Ref} {k k' : Kind} {depth : Nat} {path : List Nat} {s t w w' : List Char}

/- Labels -/

theorem label_of_script (hk : f.kind? x = some .script) : f.label x = f.fileName? x :=
  if_pos (isKind_iff.mpr hk)

theorem label_of_ne_script (hk : f.kind? x ≠ some .script) : f.label x = f.text? x :=
  if_neg (isKind_iff.not.mpr hk)

theorem text?_of_not_hasText (hk : f.kind? x = some k) (h : k.hasText = false) : f.text? x = none := by
  obtain ⟨n, hn, rfl⟩ := Option.map_eq_some_iff.mp hk
  simp [text?, hn, h]

theorem fileName?_of_ne_script (hk : f.kind? x ≠ some .script) : f.fileName? x = none := by
  cases hn : f.node? x <;> simp_all [fileName?, kind?]

theorem isStaticMember_of_ne_member (hk : f.kind? x ≠ some .memberFunction) : f.isStaticMember x = false := by
  cases hn : f.node? x <;> simp_all [isStaticMember, kind?]

theorem label_of_not_labelled (hk : f.kind? x = some k) (h : k.isLabelled = false) : f.label x = none := by
  obtain ⟨wordless, other⟩ : k.hasText = false ∧ k ≠ .script := by simpa [Kind.isLabelled] using h
  rw [label_of_ne_script (by simpa [hk] using other), text?_of_not_hasText hk wordless]

theorem IsLegible.exists_label (legible : f.IsLegible x) (hk : f.kind? x = some k) (h : k.isLabelled) :
    ∃ t, f.label x = some t ∧ IsPlain t := by
  by_cases script : k = .script
  case pos =>
    subst script
    rw [label_of_script hk]
    exact legible.file hk
  case neg =>
    rw [label_of_ne_script (by simpa [hk] using script)]
    exact legible.text k hk (by simpa [Kind.isLabelled, script] using h)

theorem Alike.label_eq (h : f.Alike g x y) : g.label y = f.label x := by
  rw [label, label, isKind, isKind, h.kind, h.text, h.file]

theorem alike_of_label (hk : f.kind? x = some k) (hk' : g.kind? y = some k) (label : g.label y = f.label x)
    (static : g.isStaticMember y = f.isStaticMember x) : f.Alike g x y := by
  by_cases script : k = .script
  case pos =>
    subst script
    rw [label_of_script hk, label_of_script hk'] at label
    have text := (text?_of_not_hasText hk' rfl).trans (text?_of_not_hasText hk rfl).symm
    exact ⟨hk'.trans hk.symm, text, label, static⟩
  case neg =>
    have other : f.kind? x ≠ some .script := by simpa [hk] using script
    have other' : g.kind? y ≠ some .script := by simpa [hk'] using script
    rw [label_of_ne_script other, label_of_ne_script other'] at label
    have file := (fileName?_of_ne_script other').trans (fileName?_of_ne_script other).symm
    exact ⟨hk'.trans hk.symm, label, file, static⟩

/- The form of a dump -/

-- What comes before the trees below a node.
def title (f : Forest) (x : Ref) (k : Kind) : List Char :=
  k.name.toList ++ trailer (f.isStaticMember x) (f.label x)

theorem toList_heading {n : Node} (hn : f.node? x = some n) : (f.heading x n).toList = f.title x n.kind := by
  have static : f.isStaticMember x = decide (n.kind = .memberFunction ∧ n.isStatic) := by
    simp only [isStaticMember, hn, Option.any_some, Bool.decide_and, Bool.decide_eq_true]
    rfl
  rw [heading, title, static]
  by_cases h : n.kind = .memberFunction ∧ n.isStatic <;> cases f.label x <;> simp [trailer, h]

theorem Valid.dumpWithin_size (v : f.Valid) (hx : f.Has x) (hc : y ∈ f.children x) :
    f.dumpWithin f.size y = f.dump y :=
  Forest.dumpWithin_eq v ((v.shallow hx.ne_none).child v hc) (v.shallow (v.has_child hc).ne_none)

theorem Valid.toList_dump (v : f.Valid) (hk : f.kind? x = some k) : (f.dump x).toList =
    '(' :: (f.title x k ++ ((f.children x).map f.dump).flatMap (' ' :: ·.toList) ++ [')']) := by
  obtain ⟨n, hn, rfl⟩ := Option.map_eq_some_iff.mp hk
  have children : f.children x = n.children := by simp [Forest.children, hn]
  have below : n.children.map (" " ++ f.dumpWithin f.size ·) = (n.children.map f.dump).map (" " ++ ·) := by
    rw [List.map_map]
    refine List.map_congr_left fun c hc => congrArg (" " ++ ·) ?_
    exact v.dumpWithin_size (has_of_kind? hk) (children ▸ hc)
  rw [dump, dumpWithin, hn]
  simp only [below, children]
  simp [toList_heading hn, List.flatMap_map, String.toList_join]

-- A dump is told by the root and the dumps of the trees below it.
theorem Alike.dump_eq (h : f.Alike g x y) (v : f.Valid) (v' : g.Valid) (hx : f.Has x)
    (below : (f.children x).map f.dump = (g.children y).map g.dump) : f.dump x = g.dump y := by
  obtain ⟨k, hk⟩ := hx.exists_kind
  have hk' : g.kind? y = some k := h.kind.trans hk
  refine String.toList_inj.mp ?_
  rw [v.toList_dump hk, v'.toList_dump hk', title, title, below, h.static, h.label_eq]

/- Reading a dump -/

theorem IsLegible.title_inj (legible : f.IsLegible x) (legible' : g.IsLegible y) (hk : f.kind? x = some k)
    (hk' : g.kind? y = some k') (h : f.title x k = g.title y k') : f.Alike g x y := by
  have noBlank (k : Kind) (c : Char) (hc : c ∈ k.name.toList) : ¬c = ' ' := (isPlain_name k c hc).left
  obtain ⟨names, trailers⟩ := append_inj_of_stops (noBlank k) (noBlank k') head?_trailer head?_trailer h
  obtain rfl : k = k' := name_injective (String.toList_inj.mp names)
  cases labelled : k.isLabelled
  case true =>
    obtain ⟨text, ht, plain⟩ := legible.exists_label hk labelled
    obtain ⟨text', ht', plain'⟩ := legible'.exists_label hk' labelled
    rw [ht, ht'] at trailers
    obtain ⟨static, rfl⟩ := trailer_inj plain plain' trailers
    exact alike_of_label hk hk' (ht'.trans ht.symm) static.symm
  case false =>
    have member : k ≠ .memberFunction := by
      rintro rfl
      cases labelled
    have label := (label_of_not_labelled hk' labelled).trans (label_of_not_labelled hk labelled).symm
    refine alike_of_label hk hk' label ?_
    rw [isStaticMember_of_ne_member (by simpa [hk'] using member),
      isStaticMember_of_ne_member (by simpa [hk] using member)]

theorem IsLegible.isPlain_label (legible : f.IsLegible x) (hk : f.kind? x = some k) {text : String}
    (ht : f.label x = some text) : IsPlain text := by
  cases labelled : k.isLabelled
  case true =>
    obtain ⟨text', ht', plain⟩ := legible.exists_label hk labelled
    exact Option.some.inj (ht'.symm.trans ht) ▸ plain
  case false => cases (label_of_not_labelled hk labelled).symm.trans ht

theorem IsLegible.not_mem_title (legible : f.IsLegible x) (hk : f.kind? x = some k) :
    ∀ c ∈ f.title x k, ¬IsParenthesis c := by
  intro c hc
  rw [title, trailer, List.mem_append, List.mem_append] at hc
  obtain hc | hc | hc := hc
  · exact (isPlain_name k c hc).right
  · split at hc
    · have plain : " static".toList.all fun c => ¬IsParenthesis c := by decide
      exact of_decide_eq_true (List.all_eq_true.mp plain c hc)
    · cases hc
  · cases ht : f.label x
    case none => simp [ht] at hc
    case some text =>
      simp only [ht, Option.elim_some, List.mem_cons] at hc
      obtain rfl | hc := hc
      · decide
      · exact (legible.isPlain_label hk ht c hc).right

-- The blank between a title and the first of the trees below.
def gap (us : List String) : List Char :=
  if us.isEmpty then [] else [' ']

theorem not_mem_append_gap {us : List String} (hw : ∀ c ∈ w, ¬IsParenthesis c) :
    ∀ c ∈ w ++ gap us, ¬IsParenthesis c := by
  intro c hc
  obtain hc | hc := List.mem_append.mp hc
  · exact hw c hc
  · obtain rfl : c = ' ' := by simp_all [gap]
    decide

theorem exists_stop {us : List String} (hu : ∀ u ∈ us, u.toList.head? = some '(') :
    ∃ rest, us.flatMap (' ' :: ·.toList) ++ ')' :: s = gap us ++ rest ∧
      rest.head? = some (if us.isEmpty then ')' else '(') := by
  cases us
  case nil => exact ⟨_, rfl, rfl⟩
  case cons u us =>
    refine ⟨u.toList ++ (us.flatMap (' ' :: ·.toList) ++ ')' :: s), by simp [gap], ?_⟩
    simp [hu u List.mem_cons_self]

-- The first parenthesis after a title tells whether the blank before it belongs to the title.
theorem title_append_inj {us us' : List String} (hw : ∀ c ∈ w, ¬IsParenthesis c)
    (hw' : ∀ c ∈ w', ¬IsParenthesis c) (hu : ∀ u ∈ us, u.toList.head? = some '(')
    (hu' : ∀ u ∈ us', u.toList.head? = some '(')
    (h : w ++ (us.flatMap (' ' :: ·.toList) ++ ')' :: s) = w' ++ (us'.flatMap (' ' :: ·.toList) ++ ')' :: t)) :
    w = w' := by
  obtain ⟨rest, e, head⟩ := exists_stop (s := s) hu
  obtain ⟨rest', e', head'⟩ := exists_stop (s := t) hu'
  have stop {rest : List Char} {us : List String} (head : rest.head? = some (if us.isEmpty then ')' else '(')) :
      ∀ c ∈ rest.head?, IsParenthesis c := by
    rw [head]
    rintro c ⟨⟩
    split <;> decide
  rw [e, e', ← List.append_assoc, ← List.append_assoc] at h
  obtain ⟨titles, rfl⟩ := append_inj_of_stops (not_mem_append_gap hw) (not_mem_append_gap hw')
    (stop head) (stop head') h
  have gaps : gap us = gap us' := by
    have := head.symm.trans head'
    cases us <;> cases us' <;> simp_all [gap]
  rw [gaps] at titles
  exact List.append_cancel_right titles

theorem parts_inj {us ws : List String}
    (cut : ∀ u ∈ us, ∀ w ∈ ws, ∀ s t, u.toList ++ s = w.toList ++ t → u = w)
    (h : us.flatMap (' ' :: ·.toList) ++ ')' :: s = ws.flatMap (' ' :: ·.toList) ++ ')' :: t) : us = ws := by
  induction us generalizing ws
  case nil =>
    cases ws
    case nil       => rfl
    case cons w ws => simp at h
  case cons u us ih =>
    cases ws
    case nil       => simp at h
    case cons w ws =>
      simp only [List.flatMap_cons, List.cons_append, List.append_assoc, List.cons.injEq, true_and] at h
      obtain rfl := cut u List.mem_cons_self w List.mem_cons_self _ _ h
      have cut' := fun x hx y hy => cut x (List.mem_cons_of_mem _ hx) y (List.mem_cons_of_mem _ hy)
      rw [ih cut' (List.append_cancel_left h)]

theorem Valid.head?_dump (v : f.Valid) (hx : f.Has x) : (f.dump x).toList.head? = some '(' := by
  obtain ⟨k, hk⟩ := hx.exists_kind
  rw [v.toList_dump hk]
  rfl

/- Trees with the same dump -/

-- A tree whose dump can be read.
structure Readable (f : Forest) (x : Ref) : Prop where
  valid   : f.Valid
  has     : f.Has x
  legible : f.Legible x

theorem Readable.below (h : f.Readable a) (hx : f.Contains a x) : f.Readable x :=
  ⟨h.valid, hx.has h.has, fun y hy => h.legible y (hx.trans hy)⟩

theorem Readable.child (h : f.Readable a) (hx : x ∈ f.children a) : f.Readable x :=
  h.below (h.valid.contains_child hx)

-- A dump says what the root is and what the dumps of the trees below it are, if these can be cut off.
theorem Readable.read (rf : f.Readable x) (rg : g.Readable y)
    (cut : ∀ c ∈ f.children x, ∀ d ∈ g.children y, ∀ s t,
      (f.dump c).toList ++ s = (g.dump d).toList ++ t → f.dump c = g.dump d)
    (h : (f.dump x).toList ++ s = (g.dump y).toList ++ t) :
    f.Alike g x y ∧ (f.children x).map f.dump = (g.children y).map g.dump := by
  obtain ⟨k, hk⟩ := rf.has.exists_kind
  obtain ⟨k', hk'⟩ := rg.has.exists_kind
  have legible := rf.legible x .refl
  have legible' := rg.legible y .refl
  simp only [rf.valid.toList_dump hk, rg.valid.toList_dump hk', List.cons_append, List.append_assoc,
    List.nil_append, List.cons.injEq, true_and] at h
  have opens : ∀ u ∈ (f.children x).map f.dump, u.toList.head? = some '(' := by
    simpa using fun c hc => rf.valid.head?_dump (rf.child hc).has
  have opens' : ∀ u ∈ (g.children y).map g.dump, u.toList.head? = some '(' := by
    simpa using fun c hc => rg.valid.head?_dump (rg.child hc).has
  have titles := title_append_inj (legible.not_mem_title hk) (legible'.not_mem_title hk') opens opens' h
  refine ⟨legible.title_inj legible' hk hk' titles, ?_⟩
  rw [titles] at h
  exact parts_inj (by simpa using cut) (List.append_cancel_left h)

-- No dump is the beginning of another one.
theorem Readable.cut (rf : f.Readable x) (rg : g.Readable y) (hd : f.Shallow depth x)
    (h : (f.dump x).toList ++ s = (g.dump y).toList ++ t) : f.dump x = g.dump y := by
  induction depth generalizing x y s t
  case zero => exact absurd hd Shallow.not_zero
  case succ depth ih =>
    obtain ⟨alike, below⟩ := rf.read rg
      (fun c hc d hd' s t => ih (rf.child hc) (rg.child hd') (hd.child rf.valid hc)) h
    exact alike.dump_eq rf.valid rg.valid rf.has below

-- Two trees that have the same dump.
structure Agree (f g : Forest) (x y : Ref) : Prop where
  left  : f.Readable x
  right : g.Readable y
  dump  : f.dump x = g.dump y

namespace Agree

theorem read (h : f.Agree g x y) :
    f.Alike g x y ∧ (f.children x).map f.dump = (g.children y).map g.dump := by
  refine h.left.read h.right (fun c hc d hd s t => ?_) (congrArg (·.toList ++ []) h.dump)
  have hc := h.left.child hc
  exact hc.cut (h.right.child hd) (hc.valid.shallow hc.has.ne_none)

theorem length_children (h : f.Agree g x y) : (f.children x).length = (g.children y).length := by
  simpa using congrArg List.length h.read.right

-- At every position there is a child in both or in neither.
theorem child (h : f.Agree g x y) (i : Nat) :
    (f.child x i = none ∧ g.child y i = none) ∨ f.Agree g (f.child x i) (g.child y i) := by
  have dumps : (f.children x)[i]?.map f.dump = (g.children y)[i]?.map g.dump := by
    simpa using congrArg (·[i]?) h.read.right
  cases hc : (f.children x)[i]? <;> cases hd : (g.children y)[i]? <;> simp only [hc, hd] at dumps
  case none.none => exact .inl (by simp [Forest.child, hc, hd])
  case none.some => cases dumps
  case some.none => cases dumps
  case some.some c d =>
    refine .inr ?_
    simp only [Forest.child, hc, hd, Option.getD_some]
    have left := h.left.child (List.mem_of_getElem? hc)
    exact ⟨left, h.right.child (List.mem_of_getElem? hd), Option.some.inj dumps⟩

theorem follow (h : f.Agree g x y) (path : List Nat) :
    (f.follow x path = none ∧ g.follow y path = none) ∨ f.Agree g (f.follow x path) (g.follow y path) := by
  induction path generalizing x y
  case nil => exact .inr h
  case cons i path ih =>
    obtain ⟨e, e'⟩ | h := h.child i
    case inl => exact .inl (by simp [Forest.follow, e, e'])
    case inr => exact ih h

end Agree

-- The node of the other tree that is at the same place.
noncomputable def image (f g : Forest) (a b x : Ref) : Ref :=
  open Classical in if h : f.Reaches a x then g.follow b h.choose else none

theorem image_follow (v : f.Valid) (hn : f.follow a path ≠ none) :
    f.image g a b (f.follow a path) = g.follow b path := by
  have h : f.Reaches a (f.follow a path) := ⟨path, rfl⟩
  have e : path = h.choose := v.follow_inj hn h.choose_spec.symm
  rw [image, dif_pos h, ← e]

theorem image_child {i : Nat} (v : f.Valid) (hn : f.child (f.follow a path) i ≠ none) :
    f.image g a b (f.child (f.follow a path) i) = g.child (g.follow b path) i := by
  have step (f : Forest) (a : Ref) : f.follow a (path ++ [i]) = f.child (f.follow a path) i := follow_append
  rw [← step, ← step]
  exact image_follow v (step f a ▸ hn)

namespace Agree

-- The node of the other tree is reached along the same path.
theorem exists_path (h : f.Agree g a b) (hx : f.Contains a x) :
    ∃ path, f.follow a path = x ∧ f.image g a b x = g.follow b path ∧ f.Agree g x (g.follow b path) := by
  have v := h.left.valid
  obtain ⟨path, rfl⟩ := v.reaches_of_contains h.left.has.ne_none hx
  have hn := hx.ne_none h.left.has.ne_none
  exact ⟨path, rfl, image_follow v hn, (h.follow path).resolve_left (hn ·.left)⟩

theorem bijOn_image (h : f.Agree g a b) :
    Set.BijOn (f.image g a b) {x | f.Contains a x} {y | g.Contains b y} := by
  have v := h.left.valid
  have v' := h.right.valid
  refine ⟨?maps, ?inj, ?surj⟩
  case maps =>
    intro x hx
    obtain ⟨path, -, e, agree⟩ := h.exists_path hx
    exact e ▸ v'.contains_follow agree.right.has.ne_none
  case inj =>
    intro x hx x' hx' same
    obtain ⟨path, rfl, e, agree⟩ := h.exists_path hx
    obtain ⟨path', rfl, e', -⟩ := h.exists_path hx'
    rw [v'.follow_inj agree.right.has.ne_none ((e.symm.trans same).trans e')]
  case surj =>
    intro y hy
    obtain ⟨path, rfl⟩ := v'.reaches_of_contains h.right.has.ne_none hy
    have agree := (h.follow path).resolve_left (hy.ne_none h.right.has.ne_none ·.right)
    have hn := agree.left.has.ne_none
    exact ⟨f.follow a path, v.contains_follow hn, image_follow v hn⟩

theorem children_image (h : f.Agree g a b) (hx : f.Contains a x) :
    g.children (f.image g a b x) = (f.children x).map (f.image g a b) := by
  obtain ⟨path, rfl, e, agree⟩ := h.exists_path hx
  rw [e]
  refine List.ext_getElem (by simp [agree.length_children]) fun i hi hi' => ?_
  rw [List.length_map] at hi'
  have here : f.child (f.follow a path) i = (f.children (f.follow a path))[i] := by simp [Forest.child, hi']
  have there : g.child (g.follow b path) i = (g.children (g.follow b path))[i] := by simp [Forest.child, hi]
  have hn := ((h.left.below hx).child (List.getElem_mem hi')).has.ne_none
  rw [List.getElem_map, ← here, ← there, image_child h.left.valid (here ▸ hn)]

theorem isomorphism (h : f.Agree g a b) : f.Isomorphism g a b (f.image g a b) where
  root        := (image_follow h.left.valid h.left.has.ne_none : f.image g a b (f.follow a []) = b)
  bijOn       := h.bijOn_image
  children hx := h.children_image hx
  alike hx    := by
    obtain ⟨path, -, e, agree⟩ := h.exists_path hx
    exact e ▸ agree.read.left

end Agree

namespace Isomorphism

variable {image : Ref → Ref}

theorem dump_eq_below (i : f.Isomorphism g a b image) (v : f.Valid) (v' : g.Valid) (ha : f.Has a)
    (hx : f.Contains a x) (hd : f.Shallow depth x) : f.dump x = g.dump (image x) := by
  induction depth generalizing x
  case zero => exact absurd hd Shallow.not_zero
  case succ depth ih =>
    refine (i.alike hx).dump_eq v v' (hx.has ha) ?_
    rw [i.children hx, List.map_map]
    exact List.map_congr_left fun c hc => ih (hx.trans (v.contains_child hc)) (hd.child v hc)

theorem dump_eq (i : f.Isomorphism g a b image) (v : f.Valid) (v' : g.Valid) (ha : f.Has a) :
    f.dump a = g.dump b :=
  i.root ▸ i.dump_eq_below v v' ha .refl (v.shallow ha.ne_none)

end Isomorphism

-- If no text has a blank or a parenthesis in it, two trees have the same dump exactly if they are the same
-- but for the numbers of their nodes.
theorem dump_eq_iff_isomorphic (hf : f.check = .ok ()) (hg : g.check = .ok ()) (ha : f.Has a) (hb : g.Has b)
    (legible : f.Legible a) (legible' : g.Legible b) :
    f.dump a = g.dump b ↔ ∃ image, f.Isomorphism g a b image where
  mp h := by
    have left : f.Readable a := ⟨valid_of_check hf, ha, legible⟩
    have right : g.Readable b := ⟨valid_of_check hg, hb, legible'⟩
    exact ⟨_, Agree.isomorphism ⟨left, right, h⟩⟩
  mpr := by
    rintro ⟨image, i⟩
    exact i.dump_eq (valid_of_check hf) (valid_of_check hg) ha

-- The same two members twice, one that is static and has no name, and one with the name `static`.
def tagged : Forest where
  nodes := #[
    { kind := .classMembers, children := [some 1, some 2] },
    { kind := .memberFunction, flags := .static, data := some 0, parent := some 0 },
    { kind := .memberFunction, data := some 1, parent := some 0 },
    { kind := .memberFunction, flags := .static, data := some 0, parent := some 5 },
    { kind := .memberFunction, data := some 1, parent := some 5 },
    { kind := .classMembers, children := [some 3, some 4] }]
  texts := #["", "static"]

theorem dump_tagged : tagged.check = .ok () ∧ (∀ a, tagged.Legible a) ∧
    tagged.dump (some 0) = "(ClassMembers (MemberFunction static ) (MemberFunction static))" ∧
    (∃ image, tagged.Isomorphism tagged (some 0) (some 5) image) ∧
    ¬∃ image, tagged.Isomorphism tagged (some 1) (some 2) image := by
  have valid : tagged.check = .ok () := (check_eq_checkChains _).trans rfl
  have legible : ∀ a, tagged.Legible a := legible_of_all (by decide)
  have has (i : NodeId) (hi : i < 6) : tagged.Has (some i) := has_iff.mpr ⟨i, hi, rfl⟩
  have same (i j : NodeId) (hi : i < 6) (hj : j < 6) :=
    dump_eq_iff_isomorphic valid valid (has i hi) (has j hj) (legible (some i)) (legible (some j))
  exact ⟨valid, legible, rfl, (same 0 5 (by decide) (by decide)).mp rfl,
    (same 1 2 (by decide) (by decide)).not.mp (by decide)⟩

end Forest

end ClassLift
