import ClassLift.Proofs.Convert.Preservation
import ClassLift.Proofs.Convert.Reports

/-!
All that a run finds, in its order. It can be told from the original tree: walking it from the leaves
up, a definition whose name is taken is found, and a method that is left without a class.
-/

namespace ClassLift

open Forest

variable {options : Options} {f g : Forest} {script r x : Ref} {done rest : List Ref} {log : Log}
variable {w w' : Workspace} {m : MemberAssignment} {change : Option Change} {name : String}

namespace Forest

-- Whether a definition before the node has its name.
def isTaken (f : Forest) (script r : Ref) : Bool :=
  (f.nearestName? r).any fun name => (f.firstOf? (f.before script r) name).isSome

def redefinedAt? (f : Forest) (script r : Ref) : Option Finding :=
  if f.isDefinition r && f.isTaken script r then
    (f.nearestName? r).map (.at f .classRedefined r)
  else
    none

-- A documented function becomes a class unless its name is taken.
def becomesClass (f : Forest) (script r : Ref) : Bool :=
  f.isKind r .function && (f.constructorDoc? r).isSome && !f.isTaken script r

-- The method at a statement on a script whose function stays one.
def leftAt? (f : Forest) (script r : Ref) : Option MemberAssignment :=
  (MemberAssignment.ofStatement? f r).filter fun m =>
    f.isKind (f.parent r) .script && m.isMethod f && !f.becomesClass script m.value

def missingAt? (f : Forest) (options : Options) (script r : Ref) : Option Finding :=
  (f.leftAt? script r).bind fun m =>
    m.unknown? f options fun className => (f.firstOf? (f.before script r) className).isSome

def findingAt? (f : Forest) (options : Options) (script r : Ref) : Option Finding :=
  (f.redefinedAt? script r).or (f.missingAt? options script r)

-- A definition repeats a name if and only if another one has it before.
theorem isRepeated_eq (v : f.Valid) (hs : f.Has script) (order : f.postorder script = done ++ rest)
    (hx : x ∈ f.definitions done) : f.isRepeated done x = f.isTaken script x := by
  obtain ⟨mem, definition⟩ := mem_definitions.mp hx
  obtain ⟨front, back, rfl⟩ := List.append_of_mem mem
  have order' : f.postorder script = front ++ x :: (back ++ rest) := by simpa using order
  have fresh := (turn_of_postorder v hs order').fresh
  rw [isTaken, before_eq v hs order', isRepeated, isFirst]
  cases hn : f.nearestName? x
  case none => rfl
  case some name =>
    simp only [Option.isSome_some, Bool.true_and, Option.any_some]
    cases hy : f.firstOf? front name
    case some y =>
      have ne : y ≠ x := fun e =>
        fresh (e ▸ (mem_definitions.mp (mem_of_firstOf? hy).left).left)
      simp [firstOf?_append_of_some hy, ne]
    case none =>
      have first : f.firstOf? (front ++ [x]) name = some x := by
        rw [firstOf?_concat definition, hy, if_pos hn, Option.none_or]
      have first : f.firstOf? ((front ++ [x]) ++ back) name = some x := firstOf?_append_of_some first
      rw [List.append_assoc, List.singleton_append] at first
      simp [first]

end Forest

/- One visit -/

namespace Workspace

-- A visit finds one thing at most.
theorem Visited.exists_found (h : w.Visited options r change w') :
    ∃ found : Option Finding, w'.findings = w.findings ++ found.toList := by
  have nothing : ∃ found : Option Finding, w.findings = w.findings ++ found.toList := ⟨none, by simp⟩
  have defined (u : Workspace) (name : Option String) (node : Ref) :
      ∃ found : Option Finding, (u.define name node).findings = u.findings ++ found.toList := by
    cases name
    case none => exact ⟨none, by simp [define]⟩
    case some name =>
      cases hl : u.registry.lookup? name
      case none => exact ⟨none, by simp [define_of_free hl]⟩
      case some => exact ⟨some _, by rw [define_of_taken hl]; rfl⟩
  cases h
  case pass | plain | statement => exact nothing
  case cls => exact defined ..
  case constructor ok =>
    cases ok
    case refused finding _ => exact ⟨some finding, rfl⟩
    case promoted => exact defined ..
  case method ok =>
    cases ok
    case stays => exact nothing
    case unknown => exact ⟨some _, rfl⟩
    case joins => exact nothing

end Workspace

namespace Defined

-- One more node has been visited, and is found if it is a definition whose name is taken.
theorem redefined_concat {α : Type} (v : f.Valid) (hs : f.Has script)
    (order : f.postorder script = done ++ r :: rest) (found : Ref → String → α) :
    ((f.definitions (done ++ [r])).filter (f.isRepeated (done ++ [r]))).filterMap
        (fun x => (f.nearestName? x).map (found x)) =
      ((f.definitions done).filter (f.isRepeated done)).filterMap
          (fun x => (f.nearestName? x).map (found x)) ++
        (if f.isDefinition r && f.isTaken script r then
          (f.nearestName? r).map (found r) else none).toList := by
  have order' : f.postorder script = (done ++ [r]) ++ rest := by simpa using order
  have repeated (order : List Ref) (rest : List Ref) (h : f.postorder script = order ++ rest) :
      (f.definitions order).filter (f.isRepeated order) =
        (f.definitions order).filter (f.isTaken script) :=
    List.filter_congr fun x hx => isRepeated_eq v hs h hx
  rw [repeated done (r :: rest) order, repeated (done ++ [r]) rest order']
  cases hd : f.isDefinition r
  case false => simp [definitions_concat_of_not hd]
  case true =>
    rw [definitions_concat hd, List.filter_append, List.filterMap_append]
    cases ht : f.isTaken script r
    case false => simp [ht]
    case true => cases hn : f.nearestName? r <;> simp [ht, hn]

end Defined

/- Functions that become classes -/

theorem Defined.promoted_iff (d : Defined f done log w) (v : f.Valid) (hs : f.Has script)
    (order : f.postorder script = done ++ rest) (hx : x ∈ done) :
    (∃ cls, .promotion x cls ∈ log) ↔ f.becomesClass script x := by
  rw [d.promoted, becomesClass]
  cases hd : f.isDefinition x
  case false =>
    have plain := (Bool.or_eq_false_iff.mp hd).right
    simp [mem_definitions, hd, plain]
  case true =>
    have definition : x ∈ f.definitions done := mem_definitions.mpr ⟨hx, hd⟩
    rw [isRepeated_eq v hs order definition]
    by_cases hk : f.kind? x = some .function
    case neg => simp [hk, isKind_iff]
    case pos =>
      have marked : (f.constructorDoc? x).isSome := by
        rcases isDefinition_iff.mp hd with h | h
        · cases hk.symm.trans h
        · exact h.right
      simp [definition, hk, isKind, marked]

-- Whether the function of a statement is still one can be told from the original tree.
theorem Defined.methodAt?_eq (d : Defined f done log w) (p : Progress f done log w) (v : f.Valid)
    (hs : f.Has script) (order : f.postorder script = done ++ r :: rest) :
    f.methodAt? log r = f.leftAt? script r := by
  have t := turn_of_postorder v hs order
  unfold methodAt? leftAt?
  cases hm : MemberAssignment.ofStatement? f r
  case none => rfl
  case some m =>
    obtain ⟨rfl, view⟩ := MemberAssignment.ofStatement?_eq_some.mp hm
    rw [Option.filter_some, Option.filter_some]
    cases hv : m.isMethod f
    case false => simp
    case true =>
      have value := (has_of_kind? (isKind_iff.mp hv)).ne_none
      have visited := p.below (t.children _ view.assignment_mem) (view.value_mem value)
      have promoted := d.promoted_iff v hs order visited
      have same : (log.cls? m.value).isNone = !f.becomesClass script m.value := by
        rw [Bool.eq_iff_iff, Option.isNone_iff_eq_none, Log.cls?_eq_none, promoted]
        simp
      rw [same]

/- Whole runs -/

theorem Run.findings_eq (run : Run options f done log w) (v : f.Valid) (hs : f.Has script)
    (h : f.postorder script = done ++ rest) :
    w.findings = done.filterMap (f.findingAt? options script) := by
  refine run.invariant (motive := fun done _ w => w.findings = done.filterMap (f.findingAt? options script))
    v hs h rfl ?_
  intro done log w r rest change w' order run ih visited
  have t := turn_of_postorder v hs order
  have p := run.progress v hs order
  have d := run.defined v hs order
  have d' := d.step p v t.has t.fresh visited
  obtain ⟨found, hf⟩ := visited.exists_found
  have redefined : found.toList.filter (·.problem = .classRedefined) = (f.redefinedAt? script r).toList := by
    have all := d'.findings
    rw [Defined.redefined_concat v hs order, hf, List.filter_append, d.findings] at all
    exact List.append_cancel_left all
  have missing : found.toList.filter Finding.isUnknown = (f.missingAt? options script r).toList := by
    have all := visited.findings
    rw [hf, List.filter_append, Reported.unknownAt?_eq p d v hs order, unknownAt?,
      d.methodAt?_eq p v hs order] at all
    exact List.append_cancel_left all
  have here : found = f.findingAt? options script r := by
    rw [findingAt?]
    cases found
    case none =>
      have none₁ : f.redefinedAt? script r = none := by simpa using redefined.symm
      have none₂ : f.missingAt? options script r = none := by simpa using missing.symm
      rw [none₁, none₂]
      rfl
    case some finding =>
      cases hp : finding.problem
      case classRedefined =>
        have some₁ : f.redefinedAt? script r = some finding := by
          cases hr : f.redefinedAt? script r <;> simp_all
        rw [some₁, Option.some_or]
      case unknownClass =>
        have none₁ : f.redefinedAt? script r = none := by
          cases hr : f.redefinedAt? script r <;> simp_all
        have some₂ : f.missingAt? options script r = some finding := by
          cases hr : f.missingAt? options script r <;> simp_all [Finding.isUnknown]
        rw [none₁, some₂, Option.none_or]
  rw [hf, ih, List.filterMap_append, here, List.filterMap_cons]
  cases f.findingAt? options script r <;> rfl

/- What a finding says -/

def Problem.sentence : Problem → String → String
  | classRedefined, name =>
    "The class " ++ name ++ " has been defined multiple times within the same file."
  | unknownClass, name => "The class " ++ name ++ " could not be found."

-- Whatever the name is, it stands in the sentence as it is.
theorem Problem.fill_message (p : Problem) (name : String) :
    Text.fill p.message.template [name] = p.sentence name := by
  cases p <;> exact Text.fill_once (by decide) (by decide) (by decide)

-- The script around a node that hangs below a script is that one.
theorem Forest.Shaped.enclosingScript_below (s : f.Shaped script) (v : f.Valid)
    (hs : f.kind? script = some .script) (hc : f.Contains script r) : f.enclosingScript r = script := by
  induction hc
  case refl => rw [enclosingScript_eq v, if_pos (isKind_iff.mpr hs)]
  case up r hc ih =>
    rw [enclosingScript_eq v]
    split
    case isTrue hk => exact s.eq_of_script hs (isKind_iff.mp hk) hc.up
    case isFalse => exact ih

theorem Finding.at_eq {n : Node} (s : f.Shaped script) (v : f.Valid) (hs : f.kind? script = some .script)
    (hc : f.Contains script r) (hn : f.node? r = some n) (problem : Problem) (name : String) :
    Finding.at f problem r name = {
      problem := problem, className := name, node := r
      diagnostic := {
        file := (f.fileName? script).getD ""
        start := n.pos.toNat
        length := n.stop.toNat - n.pos.toNat
        text := problem.sentence name
        category := problem.message.category
        code := problem.message.code } } := by
  simp [Finding.at, s.enclosingScript_below v hs hc, hn, Message.diagnostic, Problem.fill_message, Node.width]

theorem MemberAssignment.unknown?_eq_some {isKnown : String → Bool} {finding : Finding}
    (h : m.unknown? f options isKnown = some finding) :
    ∃ className, m.className? f = .ok (some className) ∧ finding = .at f .unknownClass m.target className := by
  unfold unknown? at h
  split at h
  case h_1 className ofClass =>
    split at h
    case isTrue => exact ⟨className, ofClass, (Option.some.inj h).symm⟩
    case isFalse => cases h
  case h_2 => cases h

namespace Forest

theorem leftAt?_eq_some (h : f.leftAt? script r = some m) :
    m.statement = r ∧ m.IsView f ∧ f.kind? (f.parent r) = some .script := by
  obtain ⟨of, left⟩ := Option.filter_eq_some_iff.mp h
  obtain ⟨of, view⟩ := MemberAssignment.ofStatement?_eq_some.mp of
  simp only [Bool.and_eq_true, isKind_iff] at left
  exact ⟨of, view, left.left.left⟩

-- What is found at a node is about that node, or about the target of the method there.
theorem findingAt?_eq_some (v : f.Valid) {finding : Finding}
    (h : f.findingAt? options script r = some finding) :
    ∃ problem node name, finding = .at f problem node name ∧ f.Contains r node := by
  rw [findingAt?, Option.or_eq_some_iff] at h
  rcases h with h | ⟨-, h⟩
  case inl =>
    unfold redefinedAt? at h
    split at h
    case isTrue =>
      obtain ⟨name, -, rfl⟩ := Option.map_eq_some_iff.mp h
      exact ⟨.classRedefined, r, name, rfl, .refl⟩
    case isFalse => cases h
  case inr =>
    obtain ⟨m, left, h⟩ := Option.bind_eq_some_iff.mp h
    obtain ⟨className, -, rfl⟩ := MemberAssignment.unknown?_eq_some h
    obtain ⟨rfl, view, -⟩ := leftAt?_eq_some left
    exact ⟨.unknownClass, m.target, className, rfl,
      (v.contains_child view.assignment_mem).trans (v.contains_child view.target_mem)⟩

end Forest

-- The findings of a script are those of its original tree, walked from the leaves up, and each one
-- says where it applies.
theorem findings_exact (h : f.check = .ok ()) (s : f.Shaped script) {summary : Summary}
    (ok : f.convertScript options script = (.ok summary, g)) :
    summary.findings = (f.postorder script).filterMap (f.findingAt? options script) ∧
    (∀ r m, f.Contains script r → f.leftAt? script r = some m → r ∈ f.children script) ∧
    (∀ r, f.Contains script r →
      (f.becomesClass script r ↔ ∃ cls, .promotion r cls ∈ f.changes options script)) ∧
    ∀ finding ∈ summary.findings, ∃ n, f.node? finding.node = some n ∧ finding.diagnostic = {
      file := (f.fileName? script).getD ""
      start := n.pos.toNat
      length := n.stop.toNat - n.pos.toNat
      text := finding.problem.sentence finding.className
      category := finding.problem.message.category
      code := finding.problem.message.code } := by
  have v := valid_of_check h
  obtain ⟨w, hr, rfl, rfl⟩ := convertScript_ok ok
  obtain ⟨hs, run⟩ := run_of_ok v hr
  have has := has_of_kind? hs
  have order : f.postorder script = f.postorder script ++ [] := (List.append_nil _).symm
  have mem {r : Ref} : r ∈ f.postorder script ↔ f.Contains script r := v.mem_postorder has.ne_none
  have findings : w.summary.findings = (f.postorder script).filterMap (f.findingAt? options script) :=
    run.findings_eq v has order
  refine ⟨findings, fun r m hc left => ?direct, fun r hc => ?promoted, fun finding hf => ?content⟩
  case direct =>
    obtain ⟨rfl, view, onScript⟩ := leftAt?_eq_some left
    exact s.mem_children_script v hs hc (by simp [view.statement]) onScript
  case promoted => exact ((run.defined v has order).promoted_iff v has order (mem.mpr hc)).symm
  case content =>
    rw [findings, List.mem_filterMap] at hf
    obtain ⟨r, hr, hf⟩ := hf
    obtain ⟨problem, node, name, rfl, below⟩ := findingAt?_eq_some v hf
    have hc := (mem.mp hr).trans below
    obtain ⟨n, hn⟩ := Option.isSome_iff_exists.mp (hc.has has)
    rw [Finding.at_eq s v hs hc hn]
    exact ⟨n, hn, rfl⟩

-- Two classes of one name, which is a placeholder itself, and a method of a class that is not there. The
-- second class ends before it begins.
def doubled : Forest where
  nodes := #[
    { kind := .script, data := some 0, children := [some 1, some 5, some 9] },
    { kind := .classDefinition, parent := some 0, children := [some 2, some 3, some 4] },
    { kind := .identifier, data := some 0, parent := some 1 },
    { kind := .empty, parent := some 1 },
    { kind := .classMembers, parent := some 1 },
    { kind := .classDefinition, pos := 7, stop := 5, parent := some 0,
      children := [some 6, some 7, some 8] },
    { kind := .identifier, data := some 0, parent := some 5 },
    { kind := .empty, parent := some 5 },
    { kind := .classMembers, parent := some 5 },
    { kind := .expressionStatement, parent := some 0, children := [some 10] },
    { kind := .assignment, parent := some 9, children := [some 11, some 16] },
    { kind := .propertyAccess, pos := 20, stop := 33, parent := some 10,
      children := [some 12, some 15] },
    { kind := .propertyAccess, parent := some 11, children := [some 13, some 14] },
    { kind := .identifier, data := some 1, parent := some 12 },
    { kind := .identifier, data := some 2, parent := some 12 },
    { kind := .identifier, data := some 3, parent := some 11 },
    { kind := .function, parent := some 10, children := [some 17, some 18, some 19] },
    { kind := .empty, parent := some 16 },
    { kind := .parameterList, parent := some 16 },
    { kind := .block, parent := some 16 }]
  texts := #["\x7b0\x7d", "B", "prototype", "m"]
  files := #["a.js"]

theorem doubled_check : doubled.check = .ok () ∧ doubled.isShaped :=
  ⟨(check_eq_checkChains _).trans rfl, rfl⟩

theorem doubled_convert : doubled.convertScript {} (some 0) =
    (.ok (doubled.foldScript {} (some 0)).2.summary, (doubled.foldScript {} (some 0)).2.forest) := by
  rw [convertScript, runScript_eq_foldScript (valid_of_check doubled_check.left)]
  rfl

theorem findings_exact_doubled :
    doubled.check = .ok () ∧ doubled.Shaped (some 0) ∧
    (doubled.foldScript {} (some 0)).2.summary.findings =
      [.at doubled .classRedefined (some 5) "\x7b0\x7d", .at doubled .unknownClass (some 11) "B"] ∧
    (Finding.at doubled .classRedefined (some 5) "\x7b0\x7d").diagnostic = {
      file := "a.js", start := 7, length := 0
      text := "The class \x7b0\x7d has been defined multiple times within the same file."
      category := .error, code := 9001 } := by
  have shaped := shaped_of_isShaped doubled_check.right (some 0)
  have ⟨findings, _, _, content⟩ := findings_exact doubled_check.left shaped doubled_convert
  have found : (doubled.foldScript {} (some 0)).2.summary.findings =
      [.at doubled .classRedefined (some 5) "\x7b0\x7d", .at doubled .unknownClass (some 11) "B"] :=
    findings.trans rfl
  obtain ⟨n, hn, diagnostic⟩ := content (.at doubled .classRedefined (some 5) "\x7b0\x7d") (by simp [found])
  refine ⟨doubled_check.left, shaped, found, ?_⟩
  cases hn
  rw [diagnostic]
  rfl

end ClassLift
