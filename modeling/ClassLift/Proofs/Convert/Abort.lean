import ClassLift.Proofs.Convert.Members
import ClassLift.Proofs.Convert.Outcome
import ClassLift.Proofs.Convert.Preservation

/-!
Why a conversion ends early. A valid document has only few malformations that the visits stumble over,
and each error says which one it is.
-/

namespace ClassLift

open Workspace Forest

variable {options : Options} {f g h : Forest} {script root r x cls : Ref} {done rest rs : List Ref}
variable {log : Log} {w w' : Workspace} {m : MemberAssignment} {e : ConversionError} {k : Kind}

/- What a script can have wrong -/

-- A method that joins a class whose last child is no list of members.
structure Listless (f : Forest) (options : Options) (script : Ref) (w : Workspace)
    (m : MemberAssignment) (cls : Ref) : Prop where
  statement : f.Contains script m.statement
  view      : m.IsView f
  method    : f.kind? m.value = some .function
  joins     : ∃ className name, m.Joins w options cls className name
  inScript  : f.Contains script cls
  kind      : f.kind? cls = some .classDefinition
  last      : f.kind? (f.last cls) ≠ some .classMembers

-- The error of a script and its reason in the forest that its conversion begins with. The workspace
-- is the one that is left.
inductive Fault (f : Forest) (options : Options) (script : Ref) (w : Workspace) :
    ConversionError → Prop
  | function {r : Ref} (below : f.Contains script r) (kind : f.kind? r = some .function)
    (marked : (f.constructorDoc? r).isSome) (parts : (f.children r).length ≠ 3) :
    Fault f options script w (.malformedFunction r)
  | bare {m : MemberAssignment} {cls : Ref} (listless : Listless f options script w m cls)
    (bare : f.children cls = []) :
    Fault f options script w (.tree (.invalidIndex none))
  | other {m : MemberAssignment} {cls : Ref} {k : Kind} (listless : Listless f options script w m cls)
    (found : w.forest.kind? (w.forest.last cls) = some k) (ne : k ≠ .classMembers) :
    Fault f options script w (.tree (.unexpectedKind (w.forest.last cls) .classMembers k))

theorem expectKind_eq_error {e : TreeError} : f.expectKind r k = .error e ↔
    f.kind? r = none ∧ e = .invalidIndex r ∨
      ∃ found, f.kind? r = some found ∧ found ≠ k ∧ e = .unexpectedKind r k found := by
  unfold expectKind
  split
  case h_1 hk => simp [hk, eq_comm]
  case h_2 found hk =>
    by_cases h : found = k <;> simp [hk, h, eq_comm (b := e)]

theorem children_of_last_none (v : f.Valid) (hn : f.last r = none) : f.children r = [] := by
  cases hl : (f.children r).getLast?
  case none => exact List.getLast?_eq_none_iff.mp hl
  case some c =>
    have hc : c = none := by simpa [last, hl] using hn
    exact absurd hc (v.has_child (List.mem_of_getLast? hl)).ne_none

/- One script -/

-- A class that was a function keeps its list of members in the last place.
theorem Run.list_of_promotion (run : Run options f done log w) (v : f.Valid) (hs : f.Has script)
    (order : f.postorder script = done ++ rest) (hm : .promotion r cls ∈ log) :
    w.forest.kind? (w.forest.last cls) = some .classMembers := by
  refine run.invariant (motive := fun _ log w => ∀ {r cls}, .promotion r cls ∈ log →
    w.forest.kind? (w.forest.last cls) = some .classMembers) v hs order nofun ?_ hm
  intro done log w x rest change w' order run h visited r cls hm
  have p := run.progress v hs order
  have t := turn_of_postorder v hs order
  rcases List.mem_append.mp hm with hm | hm
  case inl =>
    have stays := Stays.of_visited p v t.has t.fresh visited
    have p' := p.step v t.has t.fresh t.children visited
    have old := p.promoted hm
    rw [last, stays.children_of_kind p' old.new old.cls (by simp), ← last,
      stays.ext.kind? (has_of_kind? (h hm)), h hm]
  case inr =>
    obtain rfl := Option.mem_toList.mp hm
    obtain ⟨rfl, doc, q, rfl, rfl, -, -, promotes⟩ := visited.of_promotion
    obtain ⟨n, data, -, -, newClass⟩ := promotes.newClass
    simp [last, newClass.cls, newClass.kinds]

section Visit

variable (p : Progress f done log w) (d : Defined f done log w) (v : f.Valid)
include p d v

-- What stands for a class that has no list of members where it should be is an original class.
theorem original_of_listless {className : String} {e : TreeError}
    (lists : ∀ {r cls}, .promotion r cls ∈ log →
      w.forest.kind? (w.forest.last cls) = some .classMembers)
    (hl : w.registry.lookup? className = some cls)
    (he : w.forest.expectKind (w.forest.members cls) .classMembers = .error e) :
    cls ∈ done ∧ f.kind? cls = some .classDefinition ∧
      f.kind? (f.last cls) ≠ some .classMembers := by
  obtain ⟨x, hx, rfl⟩ := d.of_lookup? hl
  obtain ⟨visited, hdef⟩ := mem_definitions.mp (mem_of_firstOf? hx).left
  have fails (hk : w.forest.kind? (log.image x) = some .classDefinition)
      (hm : w.forest.kind? (w.forest.last (log.image x)) = some .classMembers) : False := by
    rw [members_of_kind hk, expectKind_eq_ok (u := ()) |>.mpr hm] at he
    cases he
  rcases isDefinition_iff.mp hdef with hk | ⟨hk, -⟩
  case inl =>
    have ws := p.children_of_kind v hk (by simp)
    have image := p.image_eq_self hk (by simp)
    have cls := (p.ext.kind? (has_of_kind? hk)).trans hk
    rw [image] at fails ⊢
    refine ⟨visited, hk, fun hm => fails cls ?_⟩
    rw [p.last_image ws, p.image_eq_self hm (by simp), p.ext.kind? (has_of_kind? hm), hm]
  case inr =>
    obtain ⟨cls, hc⟩ := d.cls?_of_first hx hk
    have hm := Log.promotion_mem hc
    rw [Log.image_of_some hc] at fails
    exact absurd (lists hm) (fails (p.promoted hm).cls)

theorem fault_of_fails (lists : ∀ {r cls}, .promotion r cls ∈ log →
      w.forest.kind? (w.forest.last cls) = some .classMembers)
    (hd : ∀ x ∈ done, f.Contains script x) (hc : f.Contains script r) (t : Turn f done r)
    (fails : w.Fails options r e) : Fault f options script w e := by
  cases fails
  case function doc kind documented free parts =>
    have hk := p.kind?_eq t.has kind
    rw [p.constructorDoc?_eq v t.has t.fresh] at documented
    rw [p.children_pending v t.has t.fresh (by simp [hk]), List.length_map] at parts
    exact .function hc hk (by simp [documented]) parts
  case list m cls className name e of view onScript isMethod joins list =>
    subst of
    have ⟨view', value, _⟩ := p.isView_original v t.has (p.not_merged t.fresh) view isMethod
    have ⟨visited, kind, last⟩ := original_of_listless p d v lists joins.registered list
    have listless : Listless f options script w m cls :=
      ⟨hc, view', value, ⟨className, name, joins⟩, hd cls visited, kind, last⟩
    have cls := (p.ext.kind? (has_of_kind? kind)).trans kind
    have ws := p.children_of_kind v kind (by simp)
    rw [members_of_kind cls, expectKind_eq_error] at list
    rcases list with ⟨none, rfl⟩ | ⟨k, found, ne, rfl⟩
    case inr => exact .other listless found ne
    case inl =>
      have hn := of_not_not fun hn => not_has_of_kind? none (p.valid.last_has hn)
      have bare := children_of_last_none p.valid hn
      rw [ws, List.map_eq_nil_iff] at bare
      rw [hn]
      exact .bare listless bare

end Visit

theorem runScript_error (v : f.Valid) (hs : f.kind? script = some .script)
    (h : f.runScript options script = (.error e, w)) : Fault f options script w e := by
  have ends : Ends options f script (f.runScript options script) := runScript_ends v hs
  rw [h] at ends
  cases ends
  case failed order run fails =>
    have has := has_of_kind? hs
    have ⟨hc, hd⟩ := contains_of_postorder v has order
    exact fault_of_fails (run.progress v has order) (run.defined v has order) v
      (run.list_of_promotion v has order) hd hc (turn_of_postorder v has order) fails

/- Scripts one after the other -/

-- What is wrong with a script has been wrong with it before the scripts that come before it.
theorem Fault.of_agree (a : Agree f g script) (v : f.Valid) (ext : g.Extends f)
    (docs : ∀ {r}, f.Contains script r → g.constructorDoc? r = f.constructorDoc? r)
    (h : Fault g options script w e) : Fault f options script w e := by
  have top {x : Ref} : g.Contains script x ↔ f.Contains script x := a.contains a.has.ne_none .refl
  have kind {x : Ref} (hx : f.Contains script x) : g.kind? x = f.kind? x := ext.kind? (hx.has a.has)
  have below {x c : Ref} (hx : f.Contains script x) (hc : c ∈ g.children x) : f.Contains script c :=
    hx.trans <| v.contains_child (a.children x hx ▸ hc)
  have listless {m : MemberAssignment} {cls : Ref} (l : Listless g options script w m cls) :
      Listless f options script w m cls := by
    have hm := top.mp l.statement
    have hv := below (below hm l.view.assignment_mem) (l.view.value_mem (has_of_kind? l.method).ne_none)
    have hc := top.mp l.inScript
    refine ⟨hm, a.isView v ext hm l.view, (kind hv).symm.trans l.method, l.joins, hc,
      (kind hc).symm.trans l.kind, fun hk => l.last ?_⟩
    rw [last, a.children _ hc, ← last, ext.kind? (has_of_kind? hk), hk]
  cases h
  case function r hr hk marked parts =>
    have hr := top.mp hr
    exact .function hr ((kind hr).symm.trans hk) (docs hr ▸ marked) (a.children r hr ▸ parts)
  case bare l bare => exact .bare (listless l) (a.children _ (top.mp l.inScript) ▸ bare)
  case other l found ne => exact .other (listless l) found ne

theorem convertScripts_error {total : Summary} (v : f.Valid) (b : Siblings f root rs)
    (h : convertScripts options rs total f = (.error e, g)) :
    ∃ s ∈ rs.filter (f.isKind · .script), ∃ w, w.forest = g ∧ Fault f options s w e := by
  induction rs generalizing f total
  case nil => cases h
  case cons r rs ih =>
    rw [convertScripts] at h
    by_cases hk : f.isKind r .script
    case neg =>
      rw [if_neg hk] at h
      rw [List.filter_cons, if_neg hk]
      exact ih v b.tail h
    case pos =>
      rw [if_pos hk] at h
      rw [List.filter_cons, if_pos hk]
      have hs := isKind_iff.mp hk
      rcases hc : f.runScript options r with ⟨⟨e⟩ | ⟨⟨⟩⟩, w⟩ <;>
        simp only [convertScript, hc, Except.map] at h
      case error =>
        cases h
        exact ⟨r, by simp, w, rfl, runScript_error v hs hc⟩
      case ok =>
        have ends : Ends options f r (f.runScript options r) := runScript_ends v hs
        rw [hc] at ends
        obtain ⟨done, log, p, hd⟩ := ends.progress v (has_of_kind? hs)
        have same {x : Ref} := p.apart (x := x) v hs hd
        have after := b.rest v fun x hx hn => (same hx hn).right
        obtain ⟨s, hs', w', hw, fault⟩ := ih p.valid after h
        rw [b.tail.filter_script p.ext] at hs'
        have ht := (List.mem_filter.mp hs').left
        have has := b.tail.has ht
        have out {x : Ref} (hx : f.Contains s x) : ¬f.Contains r x := fun hc => b.apart v ht x hc hx
        have agree : Agree f w.forest s :=
          .of_children v p.valid has fun x hx => (same (hx.has has) (out hx)).left
        refine ⟨s, by simp [hs'], w', hw, fault.of_agree agree v p.ext fun hx => ?_⟩
        exact p.constructorDoc?_eq v (hx.has has) fun h => out hx (hd _ h)

/- Whole conversions -/

-- What is wrong with a document whose conversion fails, and what the error says of it.
inductive Malformed (f : Forest) (options : Options) (root : Ref) :
    ConversionError → Forest → Prop
  | missing (missing : ¬f.Has root) : Malformed f options root (.tree (.invalidIndex root)) f
  | root {k : Kind} (kind : f.kind? root = some k) (ne : k ∉ [Kind.root, Kind.script]) :
    Malformed f options root (.tree (.unexpectedKind root .root k)) f
  | script {s : Ref} {w : Workspace} {e : ConversionError} (mem : s ∈ f.scripts root)
    (fault : Fault f options s w e) : Malformed f options root e w.forest

namespace ConversionError

def isMalformation : ConversionError → Bool
  | malformedFunction _ | tree (.invalidIndex _) | tree (.unexpectedKind ..) => true
  | _ => false

end ConversionError

theorem Malformed.isMalformation (h : Malformed f options root e g) : e.isMalformation := by
  cases h
  case missing | root => rfl
  case script fault => cases fault <;> rfl

theorem Fault.not_shaped (fault : Fault f options script w e) : ¬f.isShaped := by
  intro shaped
  have listless {m : MemberAssignment} {cls : Ref} (l : Listless f options script w m cls) : False := by
    exact l.last <| members_of_kind l.kind ▸ kind?_members (isFormed_of_isShaped shaped cls) l.kind
  cases fault
  case function r _ kind _ parts =>
    obtain ⟨_, _, _, hc, -⟩ := children_function (isFormed_of_isShaped shaped r) kind
    simp [hc] at parts
  case bare l _ => exact listless l
  case other l _ _ => exact listless l

-- A conversion fails only if something is malformed, and the error says what. If the root is one and
-- all nodes have the children that they should have, it does not fail.
theorem malformed_of_error (h : f.check = .ok ()) (options : Options) (root : Ref) :
    (∀ e g, f.convert options root = (.error e, g) →
      Malformed f options root e g ∧ e.isMalformation) ∧
    (f.isShaped → f.isKind root .root ∨ f.isKind root .script →
      ∃ summary g, f.convert options root = (.ok summary, g)) := by
  have v := valid_of_check h
  have malformed (e : ConversionError) (g : Forest) (he : f.convert options root = (.error e, g)) :
      Malformed f options root e g := by
    unfold convert at he
    split at he
    case isTrue hk =>
      rcases hr : f.runScript options root with ⟨⟨e⟩ | ⟨⟨⟩⟩, w⟩ <;>
        simp only [convertScript, hr, Except.map] at he <;> cases he
      exact .script (by simp [scripts, hk]) (runScript_error v (isKind_iff.mp hk) hr)
    case isFalse hk =>
      split at he
      case h_1 e' he' =>
        cases he
        rcases expectKind_eq_error.mp he' with ⟨none, rfl⟩ | ⟨k, found, ne, rfl⟩
        case inl => exact .missing (not_has_of_kind? none)
        case inr => exact .root found (by simpa [ne, isKind, found] using hk)
      case h_2 ok =>
        have hr := has_of_kind? (expectKind_eq_ok.mp ok)
        obtain ⟨s, hs, w, rfl, fault⟩ := convertScripts_error v (.of_children v hr) he
        exact .script (by simpa [scripts, hk] using hs) fault
  refine ⟨fun e g he => ⟨malformed e g he, (malformed e g he).isMalformation⟩, fun shaped hk => ?_⟩
  rcases hc : f.convert options root with ⟨⟨e⟩ | ⟨summary⟩, g⟩
  case ok => exact ⟨summary, g, rfl⟩
  case error =>
    exfalso
    cases malformed e g hc
    case missing missing =>
      rw [isKind_iff, isKind_iff] at hk
      exact missing (hk.elim has_of_kind? has_of_kind?)
    case root k kind ne =>
      simp only [isKind_iff, kind, Option.some.injEq] at hk
      exact ne (by simpa using hk)
    case script fault => exact fault.not_shaped shaped

-- A documented function without a body.
def broken : Forest where
  nodes := #[
    { kind := .script, data := some 0, children := [some 1] },
    { kind := .function, doc := some 0, parent := some 0, children := [some 2, some 3] },
    { kind := .identifier, data := some 0, parent := some 1 },
    { kind := .parameterList, parent := some 1 }]
  texts := #["A"]
  files := #["a.js"]
  docs := #[.constructor none none]

theorem broken_check : broken.check = .ok () :=
  (check_eq_checkChains _).trans rfl

theorem broken_convert :
    broken.convert {} (some 0) = (.error (.malformedFunction (some 1)), broken) :=
  (convert_of_script (valid_of_check broken_check) rfl).trans rfl

theorem malformed_of_error_broken :
    broken.convert {} (some 0) = (.error (.malformedFunction (some 1)), broken) ∧
    Malformed broken {} (some 0) (.malformedFunction (some 1)) broken :=
  ⟨broken_convert, ((malformed_of_error broken_check {} (some 0)).left _ _ broken_convert).left⟩

end ClassLift
