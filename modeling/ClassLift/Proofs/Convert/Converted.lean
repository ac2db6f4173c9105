import ClassLift.Proofs.Convert.Finished
import ClassLift.Proofs.Convert.Forward
import ClassLift.Proofs.Convert.Reports

/-!
What a converted script defines. Its classes are what the original definitions have become, under the
names that these had, and no function is a constructor any more.
-/

namespace ClassLift

open Forest

variable {options : Options} {f g : Forest} {script r x c cls : Ref} {done rest : List Ref} {log : Log}
variable {w w' : Workspace} {m : MemberAssignment} {member : Ref} {change : Option Change} {k : Kind}

theorem Forest.constructorDoc?_of_member (hk : f.kind? (f.parent r) = some .memberFunction) :
    f.constructorDoc? r = (f.docIndex? r).filter fun doc => f.docs[doc]?.any (·.isConstructor) := by
  simp [constructorDoc?, bestDoc?, boundDoc?, hk]

/- Promoted functions -/

theorem Run.cls?_eq (run : Run options f done log w) (v : f.Valid) (hs : f.Has script)
    (h : f.postorder script = done ++ rest) (hm : .promotion r cls ∈ log) : log.cls? r = some cls := by
  refine run.invariant (motive := fun _ log _ => .promotion r cls ∈ log → log.cls? r = some cls) v hs h
    nofun (fun {done log w x rest change w'} order run ih visited hm => ?_) hm
  have p := run.progress v hs order
  rcases List.mem_append.mp hm with hm | hm
  case inl =>
    have old := ih hm
    cases change
    case none => simpa using old
    case some => rw [Option.toList_some, Log.cls?_concat, old, Option.some_or]
  case inr =>
    obtain rfl := Option.mem_toList.mp hm
    obtain ⟨rfl, -⟩ := visited.of_promotion
    have fresh := p.cls?_none (turn_of_postorder v hs order).fresh
    simp [Log.cls?_concat, fresh, Change.cls?]

-- The own name of a node, which is none if it is empty.
def Forest.ownNameOf? (f : Forest) (r : Ref) : Option String :=
  (f.ownName? r).filter (· ≠ "")

-- The class has the name of the function.
theorem Progress.ownNameOf?_promoted {q : Promoted} {doc : Nat} (p : Progress f done log w) (v : f.Valid)
    (parts : Parts f w.forest q) (e : w.forest.Promotes g doc q) :
    g.ownNameOf? q.cls = f.ownNameOf? q.function := by
  have text : w.forest.identifierText? q.name = f.identifierText? q.name :=
    p.ext.identifierText? v parts.has_name
  rw [ownNameOf?, e.ownName?_filter p.valid, ownNameOf?, ownName?, ownName?, e.first_function,
    parts.first_eq, text]

-- A new node that is no list of members keeps its own name.
theorem Stays.ownNameOf?_eq (t : Stays f log change w w') (p : Progress f done log w)
    (p' : Progress f (done ++ [r]) (log ++ change.toList) w') (hx : ¬f.Has x)
    (hk : w.forest.kind? x = some k) (hn : k ≠ .classMembers) :
    w'.forest.ownNameOf? x = w.forest.ownNameOf? x := by
  have first : w'.forest.first x = w.forest.first x := by
    rw [first, first, child, child, t.children_of_kind p' hx hk hn]
  rw [ownNameOf?, ownNameOf?, ownName?, ownName?, first]
  by_cases hc : w.forest.first x = none
  case pos => rw [hc]; rfl
  case neg => rw [t.ext.identifierText? p.valid (p.valid.first_has hc)]

theorem Run.ownNameOf?_eq (run : Run options f done log w) (v : f.Valid) (s : f.Formed script)
    (hs : f.kind? script = some .script) (h : f.postorder script = done ++ rest)
    (hm : .promotion r cls ∈ log) : w.forest.ownNameOf? cls = f.ownNameOf? r := by
  have has := has_of_kind? hs
  refine run.invariant (motive := fun _ log w =>
    .promotion r cls ∈ log → w.forest.ownNameOf? cls = f.ownNameOf? r) v has h nofun ?_ hm
  intro done log w x rest change w' order run ih visited hm
  have p := run.progress v has order
  have turn := turn_of_postorder v has order
  have ⟨hc, _⟩ := contains_of_postorder v has order
  rcases List.mem_append.mp hm with hm | hm
  case inl =>
    have promoted := p.promoted hm
    have stays := Stays.of_visited p v turn.has turn.fresh visited
    have p' := p.step v turn.has turn.fresh turn.children visited
    rw [stays.ownNameOf?_eq p p' promoted.new promoted.cls (by simp), ih hm]
  case inr =>
    obtain rfl := Option.mem_toList.mp hm
    obtain ⟨rfl, doc, q, rfl, rfl, kind, -, promotes⟩ := visited.of_promotion
    exact p.ownNameOf?_promoted v (p.parts v (s.below hc) turn.fresh (p.kind?_eq turn.has kind) promotes)
      promotes

/- Whole runs -/

namespace Finished

section Places

variable (h : Finished f options script w) (v : f.Valid)
include h v

theorem cls?_eq (hm : .promotion r cls ∈ f.changes options script) :
    (f.changes options script).cls? r = some cls :=
  h.run.cls?_eq v (has_of_kind? h.kind) (List.append_nil _).symm hm

theorem reported : Reported f options script (f.postorder script) (f.changes options script) w :=
  h.run.reported v (has_of_kind? h.kind) (List.append_nil _).symm

theorem decided (s : f.Shaped script) :
    Decided f options script (f.postorder script) (f.changes options script) :=
  h.run.decided v s h.kind (List.append_nil _).symm

theorem forward (s : f.Shaped script) : Forward f script (f.changes options script) w :=
  h.run.forward v s h.kind (List.append_nil _).symm

theorem member_reached (hm : .merge m member ∈ f.changes options script) :
    w.forest.Contains script member :=
  have ⟨_, _, _, _, _, _, above⟩ := h.home v hm
  above.child rfl

-- A function that has been moved is no class, and hangs below its member.
theorem value_kept (hm : .merge m member ∈ f.changes options script) :
    (f.changes options script).cls? m.value = none ∧ w.forest.parent m.value = member := by
  have mem : m.value ∈ w.forest.children member := by simp [(h.gathered.members hm).below]
  have reached := (h.member_reached v hm).trans (h.progress.valid.contains_child mem)
  exact ⟨h.cls?_none (has_of_kind? (h.progress.merged hm).value) reached, h.progress.valid.parent_eq mem⟩

variable (s : f.Formed script)
include s

theorem cls?_parent_none (hc : f.Contains script (f.parent r))
    (hk : f.kind? r ∉ [some Kind.identifier, some .empty, some .parameterList, some .block])
    (hp : f.parent r ≠ none) : (f.changes options script).cls? (f.parent r) = none := by
  refine Log.cls?_eq_none.mpr fun ⟨cls, hm⟩ => hk ?_
  exact kind_of_part (s _ hc) (h.progress.promoted hm).kind (v.mem_parent hp)

-- A class or function that no merge has moved, or the class that it has become, is where it was.
theorem placed (hd : IsDefining f r) (hc : f.Contains script r)
    (ht : r ∉ (f.changes options script).taken) : Placed f (f.changes options script) w.forest r := by
  have p := h.progress
  have ne_script {x : Ref} {k : Kind} (hk : f.kind? x = some k) (hn : k ≠ .script) : x ≠ script := by
    rintro rfl
    exact hn (Option.some.inj (hk.symm.trans h.kind))
  have has_script := (has_of_kind? h.kind).ne_none
  have hr : r ≠ script := by
    rcases hd with hd | hd <;> exact ne_script hd (by simp)
  have above := hc.parent_of_ne hr
  have hp := above.ne_none has_script
  refine ⟨hd.has, ?parent, fun hk => ?above, fun hk hm => ?whole,
    fun {x} hx => h.gathered.image_inj p v hx hd.has⟩
  case parent =>
    refine p.parent_image v hp ht (h.cls?_parent_none v s above ?_ hp)
    rcases hd with hd | hd <;> simp [hd]
  case above =>
    have binding {k : Kind} (hk : f.kind? (f.parent r) = some k)
        (mem : k ∈ [Kind.variableDeclaration, .assignment]) :
        w.forest.parent (f.parent r) = f.parent (f.parent r) := by
      have above := above.parent_of_ne (ne_script hk (by rintro rfl; simp at mem))
      have hp := above.ne_none has_script
      have ht : f.parent r ∉ (f.changes options script).taken := fun ht => by
        obtain ⟨m, member, hm, e | e⟩ := Log.mem_taken.mp ht
        · cases hk.symm.trans (e ▸ (p.merged hm).view.statement)
          simp at mem
        · cases hk.symm.trans (e ▸ (p.merged hm).value)
          simp at mem
      refine p.parent_kept v hp ht (p.cls?_none_of_kind hk (by rintro rfl; simp at mem)) ?_
      refine h.cls?_parent_none v s above ?_ hp
      rintro e
      simp only [hk, List.mem_cons, Option.some.injEq, List.not_mem_nil, or_false] at mem e
      rcases mem with rfl | rfl <;> simp at e
    rcases List.mem_cons.mp hk with hk | hk
    · exact binding hk (by simp)
    · exact binding (List.mem_singleton.mp hk) (by simp)
  case whole =>
    obtain ⟨m, member, merged, statement⟩ := Log.mem_statements.mp hm
    have view := (p.merged merged).view
    have ofAssignment : f.parent r = m.assignment := by
      have mem := v.mem_parent (statement ▸ (has_of_kind? view.statement).ne_none)
      have above := above.parent_of_ne (ne_script hk (by simp))
      obtain ⟨x, only⟩ := children_expressionStatement (s _ above) (statement ▸ view.statement)
      have mem' := view.assignment_mem
      rw [statement, only, List.mem_singleton] at mem'
      rw [only, List.mem_singleton] at mem
      exact mem.trans mem'.symm
    have mem := v.mem_parent hp
    obtain ⟨x, y, parts⟩ := children_assignment (s _ above) hk
    have target : m.target = x := by rw [view.target.left, ← ofAssignment, first, child, parts]; rfl
    have value : m.value = y := by rw [view.value, ← ofAssignment, second, child, parts]; rfl
    simp only [parts, List.mem_cons, List.not_mem_nil, or_false] at mem
    rcases mem with e | e
    · rcases hd with hd | hd <;> cases hd.symm.trans (e.trans target.symm ▸ view.target.right)
    · exact ht (Log.mem_taken.mpr ⟨m, member, merged, .inr (e.trans value.symm)⟩)

end Places

section Definitions

variable (h : Finished f options script w) (v : f.Valid)
include h v

theorem contains_of_definition (hr : r ∈ f.definitions (f.postorder script)) : f.Contains script r :=
  (h.mem_postorder v).mp (mem_definitions.mp hr).left

-- Each class of the script was a definition.
theorem definition_of_class (hk : w.forest.kind? c = some .classDefinition)
    (hc : w.forest.Contains script c) :
    ∃ r ∈ f.definitions (f.postorder script), (f.changes options script).image r = c := by
  rcases h.classes hk with hk' | ⟨r, hm⟩
  case inl =>
    have mem := (h.mem_postorder v).mpr (h.before (has_of_kind? hk') hc)
    have definition := mem_definitions.mpr ⟨mem, isDefinition_iff.mpr (.inl hk')⟩
    exact ⟨c, definition, h.progress.image_eq_self hk' (by simp)⟩
  case inr =>
    have ⟨definition, _⟩ := (h.defined.promoted r).mp ⟨c, hm⟩
    exact ⟨r, definition, Log.image_of_some (h.cls?_eq v hm)⟩

variable (u : f.IsUnambiguous (f.postorder script))
include u

-- Each definition is a class of the script.
theorem class_of_definition (hr : r ∈ f.definitions (f.postorder script)) :
    w.forest.kind? ((f.changes options script).image r) = some .classDefinition ∧
      w.forest.Contains script ((f.changes options script).image r) := by
  have p := h.progress
  by_cases hk : f.kind? r = some .function
  case pos =>
    obtain ⟨cls, promoted⟩ := (h.defined.promoted r).mpr ⟨hr, hk, u r hr⟩
    rw [Log.image_of_some (h.cls?_eq v promoted)]
    exact ⟨(p.promoted promoted).cls, h.reached.new promoted⟩
  case neg =>
    have hk : f.kind? r = some .classDefinition :=
      (isDefinition_iff.mp (mem_definitions.mp hr).right).resolve_right fun e => hk e.left
    rw [p.image_eq_self hk (by simp), p.ext.kind? (has_of_kind? hk), h.reached.old (has_of_kind? hk)]
    exact ⟨hk, h.contains_of_definition v hr, h.reached.not_lost_of_kind p hk (by simp [Kind.isDropped])
      (by simp)⟩

theorem not_taken_of_definition (hr : r ∈ f.definitions (f.postorder script)) :
    r ∉ (f.changes options script).taken := by
  intro ht
  have p := h.progress
  have definition := isDefinition_iff.mp (mem_definitions.mp hr).right
  obtain ⟨m, member, merged, rfl | rfl⟩ := Log.mem_taken.mp ht
  case inl => simp [(p.merged merged).view.statement] at definition
  case inr =>
    have function := (p.merged merged).value
    obtain ⟨cls, promoted⟩ := (h.defined.promoted _).mpr ⟨hr, function, u _ hr⟩
    have none := (h.value_kept v merged).left
    exact Log.cls?_eq_none.mp none ⟨cls, promoted⟩

-- A class has the name of its definition.
theorem nearestName?_image (s : f.Formed script) (hr : r ∈ f.definitions (f.postorder script)) :
    w.forest.nearestName? ((f.changes options script).image r) = f.nearestName? r := by
  have p := h.progress
  have defining := IsDefining.of_isDefinition (mem_definitions.mp hr).right
  have placed := h.placed v s defining (h.contains_of_definition v hr) (h.not_taken_of_definition v u hr)
  refine placed.nearestName?_eq p v ?_
  cases hc : (f.changes options script).cls? r
  case none =>
    rw [Log.image_of_none hc, p.ownName?_eq v hc (by simpa [IsDefining] using defining)]
  case some cls =>
    rw [Log.image_of_some hc]
    exact h.run.ownNameOf?_eq v s h.kind (List.append_nil _).symm (Log.promotion_mem hc)

-- No function is a constructor any more.
theorem constructorDoc?_none (s : f.Formed script) (hk : w.forest.kind? x = some .function)
    (hc : w.forest.Contains script x) : w.forest.constructorDoc? x = none := by
  have p := h.progress
  by_cases hf : f.Has x
  case neg =>
    obtain ⟨bare, member, new, member_kind, mem⟩ := (h.made hf (has_of_kind? hk)).function hk
    rw [constructorDoc?_of_member (p.valid.parent_eq mem ▸ member_kind), bare]
    rfl
  case pos =>
    have hu := h.cls?_none hf hc
    have plain : f.constructorDoc? x = none := by
      refine Option.eq_none_iff_forall_ne_some.mpr fun doc marked => ?_
      have mem := (h.mem_postorder v).mpr (h.before hf hc)
      have definition : f.isDefinition x := isDefinition_iff.mpr (.inr ⟨p.kind?_eq hf hk, by simp [marked]⟩)
      have ⟨cls, _⟩ := h.class_of_definition v u (mem_definitions.mpr ⟨mem, definition⟩)
      cases (Log.image_of_none hu ▸ cls).symm.trans hk
    by_cases ht : x ∈ (f.changes options script).taken
    case neg =>
      have placed := h.placed v s (.inr (p.kind?_eq hf hk)) (h.before hf hc) ht
      exact (placed.constructorDoc?_eq p v hu).trans plain
    case pos =>
      obtain ⟨m, member, merged, rfl | rfl⟩ := Log.mem_taken.mp ht
      case inl => cases (p.merged merged).view.statement.symm.trans (p.kind?_eq hf hk)
      case inr =>
        have member_kind := (h.value_kept v merged).right ▸ (h.gathered.members merged).kind
        rw [constructorDoc?_of_member member_kind, p.ext.docIndex? hf, p.ext.docs]
        cases hd : f.docIndex? m.value
        case none => rfl
        case some doc => simpa [constructorDoc?, bestDoc?, hd] using plain

end Definitions

end Finished

end ClassLift
