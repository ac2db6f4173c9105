import ClassLift.Proofs.Naming.Path
import ClassLift.Proofs.Tree.Mirror

/-!
Building a path and reading it. What is built from a text reads back as the parts of that text, and
a chain that is there is built again from its name.
-/

namespace ClassLift.Forest

-- The object that the accesses to the members of members of … begin with.
inductive StartsAt (f : Forest) (start : Ref) : Ref → Prop
  | here : f.kind? start ≠ some .propertyAccess → StartsAt f start start
  | access {r : Ref} : f.kind? r = some .propertyAccess → StartsAt f start (f.first r) →
    StartsAt f start r

variable {f g : Forest} {r r' start : Ref} {depth : Nat} {k : Kind} {name : String} {path : List String}

/- Reading -/

theorem IsWord.identifierText? (w : f.IsWord r name) : f.identifierText? r = some name := by
  rw [Forest.identifierText?, if_pos (isKind_iff.mpr w.kind), w.text]

namespace Chain

theorem pathWithin_eq (c : f.Chain r path) (deep : path.length ≤ depth) :
    f.pathWithin depth r = some path := by
  induction c generalizing depth
  case word w =>
    cases depth
    case zero   => simp at deep
    case succ _ => simp [pathWithin, w.kind, w.text]
  case access r object property path name kind children _ w ih =>
    cases depth
    case zero       => simp at deep
    case succ depth =>
      have first : f.first r = object := by simp [first, child, children]
      have last : f.last r = property := by simp [last, children]
      have before := ih (by simpa using deep)
      simp [pathWithin, kind, first, last, w.identifierText?, before]

theorem length_le (c : f.Chain r path) (v : f.Valid) (shallow : f.Shallow depth r) :
    path.length ≤ depth := by
  induction c generalizing depth
  case word =>
    cases depth
    case zero   => exact absurd shallow Shallow.not_zero
    case succ _ => simp
  case access children _ _ ih =>
    cases depth
    case zero   => exact absurd shallow Shallow.not_zero
    case succ _ => simpa using ih (shallow.child v (by simp [children]))

theorem path?_eq (c : f.Chain r path) (v : f.Valid) : f.path? r = some path :=
  c.pathWithin_eq (c.length_le v (v.shallow c.has.ne_none))

theorem qualifiedName?_eq (c : f.Chain r path) (v : f.Valid) :
    f.qualifiedName? r = some (Path.toText path) := by
  rw [qualifiedName?, c.path?_eq v, Option.map_some]

end Chain

theorem Spells.qualifiedName?_eq (s : f.Spells r path) : f.qualifiedName? r = some (Path.toText path) := by
  rw [qualifiedName?, path?, s.chain.pathWithin_eq (Nat.le_succ_of_le s.short), Option.map_some]

-- Every node has such an object, but it need not be there.
theorem Valid.exists_start (v : f.Valid) (r : Ref) : ∃ start, f.StartsAt start r := by
  by_cases hr : r = none
  case pos => exact ⟨r, .here (by simp [hr, kind?])⟩
  case neg =>
    have shallow := v.shallow hr
    generalize f.size + 1 = depth at shallow
    induction depth generalizing r
    case zero => exact absurd shallow Shallow.not_zero
    case succ depth ih =>
      by_cases access : f.kind? r = some .propertyAccess
      case neg => exact ⟨r, .here access⟩
      case pos =>
        by_cases object : f.first r = none
        case pos => exact ⟨none, .access access (by rw [object]; exact .here (by simp [kind?]))⟩
        case neg =>
          obtain ⟨start, starts⟩ := ih (f.first r) object (shallow.child v (child_mem object))
          exact ⟨start, .access access starts⟩

theorem StartsAt.pathWithin_eq (s : f.StartsAt start r) (text : f.identifierText? start = none)
    (this : f.kind? start ≠ some .thisKeyword) (depth : Nat) : f.pathWithin depth r = none := by
  induction s generalizing depth
  case here access =>
    cases depth
    case zero => rfl
    case succ depth =>
      rw [pathWithin]
      split
      case h_1 kind =>
        rw [identifierText?, if_pos (isKind_iff.mpr kind)] at text
        simp [text]
      case h_2 kind => exact absurd kind this
      case h_3 kind => exact absurd kind access
      case h_4 => rfl
  case access kind _ ih =>
    cases depth
    case zero => rfl
    case succ depth => simp [pathWithin, kind, ih depth]

/- Dumps -/

theorem dumpWithin_succ (hk : f.kind? r = some k) (script : k ≠ .script)
    (member : k ≠ .memberFunction) : f.dumpWithin (depth + 1) r =
      "(" ++ (k.name ++ (f.text? r).elim "" (" " ++ ·)) ++
        String.join ((f.children r).map (" " ++ f.dumpWithin depth ·)) ++ ")" := by
  have ⟨n, hn⟩ := Option.isSome_iff_exists.mp (has_of_kind? hk)
  have kind : n.kind = k := by simpa [kind?, hn] using hk
  have children : f.children r = n.children := by simp [Forest.children, hn]
  have label : f.label r = f.text? r := by simp [label, isKind, hk, script]
  simp [dumpWithin, hn, heading, kind, member, label, children]

theorem text?_access (hk : f.kind? r = some .propertyAccess) : f.text? r = none := by
  have ⟨n, hn⟩ := Option.isSome_iff_exists.mp (has_of_kind? hk)
  have kind : n.kind = .propertyAccess := by simpa [kind?, hn] using hk
  simp [text?, hn, kind, Kind.hasText]

theorem IsWord.dumpWithin_eq (w : f.IsWord r name) (w' : g.IsWord r' name) :
    f.dumpWithin depth r = g.dumpWithin depth r' := by
  cases depth
  case zero => rfl
  case succ depth =>
    rw [dumpWithin_succ w.kind nofun nofun, dumpWithin_succ w'.kind nofun nofun, w.text, w'.text,
      w.leaf, w'.leaf, List.map_nil, List.map_nil]

namespace Chain

-- The dump of a chain depends on nothing but the path.
theorem dumpWithin_eq (c : f.Chain r path) (c' : g.Chain r' path) :
    f.dumpWithin depth r = g.dumpWithin depth r' := by
  induction c generalizing depth r'
  case word w => exact w.dumpWithin_eq c'.isWord
  case access kind children before w ih =>
    have ⟨object', property', kind', children', before', w'⟩ := c'.isAccess before.ne_nil
    cases depth
    case zero => rfl
    case succ depth =>
      rw [dumpWithin_succ kind nofun nofun, dumpWithin_succ kind' nofun nofun, text?_access kind,
        text?_access kind', children, children']
      simp only [List.map_cons, List.map_nil, ih before', w.dumpWithin_eq w']

theorem dump_eq (c : f.Chain r path) (v : f.Valid) (c' : g.Chain r' path) (v' : g.Valid) :
    f.dump r = g.dump r' := by
  have shallow := v.shallow c.has.ne_none
  have shallow' := v'.shallow c'.has.ne_none
  let depth := max (f.size + 1) (g.size + 1)
  calc f.dump r
    _ = f.dumpWithin depth r  := Forest.dumpWithin_eq v shallow (shallow.mono (Nat.le_max_left ..))
    _ = g.dumpWithin depth r' := c.dumpWithin_eq c'
    _ = g.dump r'             := Forest.dumpWithin_eq v' (shallow'.mono (Nat.le_max_right ..)) shallow'

end Chain

/- Building and reading -/

-- `g` is `f` with a new tree at `r`, which is the chain of a path and reads back as that path.
structure Built (f g : Forest) (r : Ref) (path : List String) : Prop where
  new   : ¬f.Has r
  has   : g.Has r
  free  : g.parent r = none
  chain : g.Chain r path
  reads : g.path? r = some path
  check : g.check = .ok ()
  node  : ∀ x, f.Has x → g.node? x = f.node? x
  texts : g.texts = f.texts ++ path.toArray
  files : g.files = f.files
  docs  : g.docs = f.docs

theorem AddsPath.built (a : f.AddsPath g r path) : f.Built g r path where
  new       := a.sprouts.new
  has       := a.sprouts.has
  free      := a.sprouts.free
  chain     := a.chain
  reads     := a.chain.path?_eq a.sprouts.grows.valid
  check     := check_of_valid a.sprouts.grows.valid
  node _ hx := node?_eq (a.sprouts.grows.ext.label hx) (a.sprouts.grows.parent hx)
    (a.sprouts.grows.children hx)
  texts     := a.texts
  files     := a.sprouts.grows.ext.files
  docs      := a.sprouts.grows.ext.docs

theorem exists_buildPath (v : f.Valid) {text : String} (h : "" ∉ Path.split text) :
    ∃ g r, f.buildPath text = (g, some r) ∧ f.Built g r (Path.split text) := by
  have ⟨g, r, added, _⟩ := exists_addPath f (Path.split_ne_nil text)
  refine ⟨g, r, ?_, (addsPath_addPath v added).built⟩
  rw [buildPath, Path.ofText?_eq, if_neg h]
  exact added

-- Texts and the chains that are built from them stand for each other. What does not begin with an
-- identifier or with `this` has no path.
theorem paths_round_trip (h : f.check = .ok ()) :
    (∀ text, "" ∉ Path.split text → ∃ g r, f.buildPath text = (g, some r) ∧
      f.Built g r (Path.split text) ∧ g.qualifiedName? r = some text) ∧
    (∀ text, "" ∈ Path.split text → f.buildPath text = (f, none)) ∧
    (∀ r path, f.Chain r path → (∀ name ∈ path, name ≠ "" ∧ '.' ∉ name.toList) →
      ∃ text g r', f.qualifiedName? r = some text ∧ f.buildPath text = (g, some r') ∧
        g.dump r' = f.dump r) ∧
    ∀ r, (∃ start, f.StartsAt start r) ∧ ∀ start, f.StartsAt start r →
      f.identifierText? start = none → f.kind? start ≠ some .thisKeyword → f.path? r = none := by
  have v := valid_of_check h
  refine ⟨fun text parts => ?built, fun text empty => ?refused, fun r path c plain => ?again, fun r => ?read⟩
  case built =>
    have ⟨g, r, ok, built⟩ := exists_buildPath v parts
    refine ⟨g, r, ok, built, ?_⟩
    rw [qualifiedName?, built.reads, Option.map_some, Path.toText_split]
  case refused => rw [buildPath, Path.ofText?_eq, if_pos empty]
  case again =>
    have split := Path.split_toText (fun name hn => (plain name hn).right) c.ne_nil
    have parts : "" ∉ Path.split (Path.toText path) := fun empty => (plain "" (split ▸ empty)).left rfl
    have ⟨g, r', ok, built⟩ := exists_buildPath v parts
    rw [split] at built
    exact ⟨_, g, r', c.qualifiedName?_eq v, ok,
      built.chain.dump_eq (valid_of_check built.check) c v⟩
  case read => exact ⟨v.exists_start r, fun start starts text this => starts.pathWithin_eq text this _⟩

-- The path `a.b`, and the member `d` of the call `c()`.
def dotted : Forest where
  nodes := #[
    { kind := .propertyAccess, children := [some 1, some 2] },
    { kind := .identifier, data := some 0, parent := some 0 },
    { kind := .identifier, data := some 1, parent := some 0 },
    { kind := .propertyAccess, children := [some 4, some 6] },
    { kind := .call, parent := some 3, children := [some 5] },
    { kind := .identifier, data := some 2, parent := some 4 },
    { kind := .identifier, data := some 3, parent := some 3 }]
  texts := #["a", "b", "c", "d"]

-- The path is built again, and the member of a call has none.
theorem paths_round_trip_dotted : dotted.check = .ok () ∧
    (∃ g r, dotted.buildPath "a.b" = (g, some r) ∧ g.dump r = dotted.dump (some 0)) ∧
    dotted.path? (some 3) = none := by
  have ok : dotted.check = .ok () := (check_eq_checkChains _).trans rfl
  have ⟨_, _, again, read⟩ := paths_round_trip ok
  refine ⟨ok, ?again, ?read⟩
  case again =>
    have chain : dotted.Chain (some 0) (["a"] ++ ["b"]) :=
      .access rfl rfl (.word ⟨rfl, rfl, rfl⟩) ⟨rfl, rfl, rfl⟩
    have ⟨text, g, r, name, built, same⟩ := again (some 0) ["a", "b"] chain (by decide)
    have isText : dotted.qualifiedName? (some 0) = some "a.b" := rfl
    cases isText.symm.trans name
    exact ⟨g, r, built, same⟩
  case read => exact (read (some 3)).right (some 4) (.access rfl (.here (by decide))) rfl (by decide)

end ClassLift.Forest
