import ClassLift.Proofs.Convert.Counterparts

/-!
The bodies of classes. Two methods may not both be the constructor, and no static method may take the
name `prototype`. A promotion makes such bodies, but a member that is merged takes its name from the
statement, and no name is refused. What a body has afterwards can be counted: what it had, and one method
for each statement.
-/

namespace ClassLift

open Forest

/- Legal bodies -/

namespace Forest

-- Whether a member is a method of this name.
def isNamed (f : Forest) (name : String) (isStatic : Bool) (r : Ref) : Bool :=
  f.isKind r .memberFunction && f.text? r == some name && f.isStaticMember r == isStatic

-- How many methods of this name a class has.
def countNamed (f : Forest) (cls : Ref) (name : String) (isStatic : Bool) : Nat :=
  (f.children (f.members cls)).countP (f.isNamed name isStatic)

structure IsLegal (f : Forest) (cls : Ref) : Prop where
  constructor : f.countNamed cls "constructor" false ≤ 1
  prototype   : f.countNamed cls "prototype" true = 0

theorem isLegal_iff (f : Forest) (cls : Ref) : f.IsLegal cls ↔
    f.countNamed cls "constructor" false ≤ 1 ∧ f.countNamed cls "prototype" true = 0 :=
  ⟨fun h => ⟨h.constructor, h.prototype⟩, fun h => ⟨h.left, h.right⟩⟩

instance (f : Forest) (cls : Ref) : Decidable (f.IsLegal cls) :=
  decidable_of_iff' _ (f.isLegal_iff cls)

-- How many of them are its own after a conversion of `f`: those of a class that has always been there,
-- and one constructor of a class that was a function.
def countOwn (f : Forest) (cls : Ref) (name : String) (isStatic : Bool) : Nat :=
  if f.isKind cls .classDefinition then f.countNamed cls name isStatic
  else if name = "constructor" ∧ isStatic = false then 1
  else 0

end Forest

-- Whether the statement assigns a method of this name.
def MemberAssignment.assigns (m : MemberAssignment) (f : Forest) (name : String) (isStatic : Bool) : Bool :=
  m.memberName? f == some name && m.isStatic f == isStatic

-- The statements that have been merged into a class of `g`.
def Log.mergedInto (log : Log) (g : Forest) (cls : Ref) : List MemberAssignment :=
  (log.merges.filter (g.parent ·.2 = g.members cls)).map (·.1)

variable {options : Options} {f g : Forest} {root r cls : Ref} {ss done : List Ref}
variable {log : Log} {w : Workspace} {m : MemberAssignment} {member : Ref} {name : String}
variable {isStatic : Bool} {summary : Summary}

/- Names -/

theorem MemberAssignment.assigns_iff : m.assigns f name isStatic ↔
    m.memberName? f = some name ∧ m.isStatic f = isStatic := by
  simp [assigns]

namespace Forest

theorem isStaticMember_eq_label? : f.isStaticMember r =
    (f.label? r).any fun n => n.kind == .memberFunction && n.isStatic := by
  unfold isStaticMember label?
  cases f.node? r <;> rfl

theorem isNamed_iff : f.isNamed name isStatic r ↔
    f.kind? r = some .memberFunction ∧ f.text? r = some name ∧ f.isStaticMember r = isStatic := by
  simp [isNamed, isKind_iff, and_assoc]

theorem not_isNamed (hk : f.kind? r ≠ some .memberFunction) : f.isNamed name isStatic r = false :=
  Bool.eq_false_iff.mpr fun h => hk (isNamed_iff.mp h).left

theorem Extends.isNamed (e : g.Extends f) (v : f.Valid) (hr : f.Has r) :
    g.isNamed name isStatic r = f.isNamed name isStatic r := by
  rw [Forest.isNamed, Forest.isNamed, e.isKind hr, e.text? v hr, isStaticMember_eq_label?,
    isStaticMember_eq_label?, e.label hr]

end Forest

-- A method is still one, and what a function has become is none.
theorem Progress.isNamed_image (p : Progress f done log w) (v : f.Valid) (hf : f.Has r) :
    w.forest.isNamed name isStatic (log.image r) = f.isNamed name isStatic r := by
  cases hc : log.cls? r
  case none => rw [Log.image_of_none hc, p.ext.isNamed v hf]
  case some =>
    have q := p.promoted (Log.promotion_mem hc)
    rw [Log.image_of_some hc, not_isNamed (q.cls ▸ by simp), not_isNamed (q.kind ▸ by simp)]

-- The constructor that a promotion makes has no other name, and is not static.
theorem IsConstructor.isNamed_iff (h : IsConstructor f g r member) :
    g.isNamed name isStatic member ↔ name = "constructor" ∧ isStatic = false := by
  obtain ⟨n, data, doc, -, -, label⟩ := h.label
  have kind : g.kind? member = some .memberFunction := by
    simp [kind?_eq_label?, label, constructorNode]
  have static : g.isStaticMember member = false := by
    rw [isStaticMember_eq_label?, label]
    simp [constructorNode, Node.isStatic]
    decide
  rw [Forest.isNamed_iff, h.text, static, Option.some.injEq, and_iff_right kind, eq_comm, @eq_comm _ false]

-- A merged member is named after its statement.
theorem IsMember.isNamed_iff (h : IsMember f g m member) : g.isNamed name isStatic member ↔
    m.memberName? f = some name ∧ m.isStatic f = isStatic := by
  obtain ⟨name', named, text⟩ := h.text
  obtain ⟨n, data, -, label⟩ := h.label
  have static : g.isStaticMember member = m.isStatic f := by
    rw [isStaticMember_eq_label?, label]
    cases m.isStatic f <;> simp [memberNode, Node.isStatic] <;> decide
  simp [Forest.isNamed_iff, h.kind, text, named, static]

/- Counts -/

namespace Whole

variable (h : Whole f g ss log)
include h

-- Each statement that is merged into a class counts as one method of its name.
theorem countP_merged (list : Ref) :
    ((log.merges.filter (g.parent ·.2 = list)).map (·.2)).countP (g.isNamed name isStatic) =
      ((log.merges.filter (g.parent ·.2 = list)).map (·.1)).countP (·.assigns f name isStatic) := by
  rw [List.countP_map, List.countP_map]
  refine List.countP_congr fun p hp => ?_
  have member := h.members (Log.mem_merges.mp (List.mem_filter.mp hp).left)
  exact member.isNamed_iff.trans MemberAssignment.assigns_iff.symm

-- A class has the methods that are its own, and those that have been merged into it.
theorem countNamed_eq (v : f.Valid) (formed : f.isFormed cls)
    (hk : g.kind? cls = some .classDefinition) (name : String) (isStatic : Bool) :
    g.countNamed cls name isStatic =
      f.countOwn cls name isStatic + (log.mergedInto g cls).countP (·.assigns f name isStatic) := by
  have p := h.progress
  rw [countNamed, Log.mergedInto, ← h.countP_merged]
  rcases h.classes hk with old | ⟨r, hm⟩
  case inl =>
    obtain ⟨own, list, children⟩ := h.exists_list v formed (.inl old)
    rw [p.image_eq_self old (by simp)] at children
    rw [children, List.countP_append, countOwn, if_pos (isKind_iff.mpr old)]
    cases list
    case promoted kind _ => cases old.symm.trans kind
    case original =>
      rw [List.countP_map, countNamed]
      congr 1
      exact List.countP_congr fun r hr => by rw [Function.comp_apply, p.isNamed_image v (v.has_child hr)]
  case inr =>
    obtain ⟨constructor, list⟩ := h.lists hm
    have new : ¬f.isKind cls .classDefinition := fun hk =>
      (p.promoted hm).new (has_of_kind? (isKind_iff.mp hk))
    rw [list.children, Log.map_members_filter, List.countP_cons, Nat.add_comm, countOwn, if_neg new]
    simp only [list.first.isNamed_iff]

end Whole

/- Whole conversions -/

-- A merged member is named after its statement, so the methods of a class can be counted from what it had
-- and from the statements that have been merged into it. A class whose methods were legal is so afterwards
-- if and only if there is room for every constructor, and no statement makes a static `prototype`.
theorem legal_iff (h : f.check = .ok ()) (shaped : f.isShaped)
    (legal : ∀ cls, f.kind? cls = some .classDefinition → f.IsLegal cls)
    (ok : f.convert options root = (.ok summary, g)) :
    let log := f.allChanges options root
    (∀ m member, .merge m member ∈ log → ∀ name isStatic, g.isNamed name isStatic member ↔
      m.memberName? f = some name ∧ m.isStatic f = isStatic) ∧
    ∀ cls, g.kind? cls = some .classDefinition →
      let merged := log.mergedInto g cls
      (∀ name isStatic, g.countNamed cls name isStatic =
        f.countOwn cls name isStatic + merged.countP (·.assigns f name isStatic)) ∧
      (g.IsLegal cls ↔
        f.countOwn cls "constructor" false + merged.countP (·.assigns f "constructor" false) ≤ 1 ∧
        ∀ m ∈ merged, ¬(m.memberName? f = some "prototype" ∧ m.isStatic f)) := by
  have v := valid_of_check h
  have whole := (passes_of_ok v shaped ok).whole
  refine ⟨fun m member hm name isStatic => (whole.members hm).isNamed_iff, fun cls hk => ?_⟩
  have count := whole.countNamed_eq v (isFormed_of_isShaped shaped cls) hk
  have own : f.countOwn cls "prototype" true = 0 := by
    unfold countOwn
    split
    case isTrue old => exact (legal cls (isKind_iff.mp old)).prototype
    case isFalse => rfl
  refine ⟨count, ?_⟩
  rw [isLegal_iff, count, count, own, Nat.zero_add, List.countP_eq_zero]
  simp only [MemberAssignment.assigns_iff]

-- The class `A`, which has a constructor, and a function that is assigned to `A.prototype`.
def extended (name : String) : Forest where
  nodes := #[
    { kind := .script, data := some 0, children := [some 1, some 10] },
    { kind := .classDefinition, parent := some 0, children := [some 2, some 3, some 4] },
    { kind := .identifier, data := some 0, parent := some 1 },
    { kind := .empty, parent := some 1 },
    { kind := .classMembers, parent := some 1, children := [some 5] },
    { kind := .memberFunction, data := some 1, parent := some 4, children := [some 6] },
    { kind := .function, parent := some 5, children := [some 7, some 8, some 9] },
    { kind := .empty, parent := some 6 },
    { kind := .parameterList, parent := some 6 },
    { kind := .block, parent := some 6 },
    { kind := .expressionStatement, parent := some 0, children := [some 11] },
    { kind := .assignment, parent := some 10, children := [some 12, some 17] },
    { kind := .propertyAccess, parent := some 11, children := [some 13, some 16] },
    { kind := .propertyAccess, parent := some 12, children := [some 14, some 15] },
    { kind := .identifier, data := some 0, parent := some 13 },
    { kind := .identifier, data := some 2, parent := some 13 },
    { kind := .identifier, data := some 3, parent := some 12 },
    { kind := .function, parent := some 11, children := [some 18, some 19, some 20] },
    { kind := .empty, parent := some 17 },
    { kind := .parameterList, parent := some 17 },
    { kind := .block, parent := some 17 }]
  texts := #["A", "constructor", "prototype", name]
  files := #["a.js"]

theorem extended_check : (extended "f").check = .ok () ∧ (extended "constructor").check = .ok () :=
  ⟨(check_eq_checkChains _).trans rfl, (check_eq_checkChains _).trans rfl⟩

theorem extended_convert :
    let w := ((extended "f").foldScript {} (some 0)).2
    (extended "f").convert {} (some 0) = (.ok { findings := w.findings, stats := w.stats }, w.forest) :=
  convert_of_foldScript extended_check.left rfl rfl

-- Here the class has another method in the place of its constructor.
def vacant : Forest :=
  { extended "constructor" with texts := #["A", "f", "prototype", "constructor"] }

theorem vacant_check : vacant.check = .ok () ∧ vacant.isShaped :=
  ⟨(check_eq_checkChains _).trans rfl, rfl⟩

theorem vacant_convert :
    let w := (vacant.foldScript {} (some 0)).2
    vacant.convert {} (some 0) = (.ok { findings := w.findings, stats := w.stats }, w.forest) :=
  convert_of_foldScript vacant_check.left rfl rfl

-- The function becomes its only constructor, so the class stays legal.
theorem legal_iff_vacant :
    let g := (vacant.foldScript {} (some 0)).2.forest
    vacant.check = .ok () ∧ vacant.isShaped ∧ vacant.IsLegal (some 1) ∧
    vacant.countNamed (some 1) "constructor" false = 0 ∧
    g.countNamed (some 1) "constructor" false = 1 ∧ g.IsLegal (some 1) := by
  obtain ⟨check, shaped⟩ := vacant_check
  have legal := forall_of_kind (f := vacant) (P := vacant.IsLegal) (k := .classDefinition) (by decide)
  have ⟨_, classes⟩ := legal_iff check shaped legal vacant_convert
  have ⟨count, room⟩ := classes (some 1) rfl
  refine ⟨check, shaped, legal (some 1) rfl, rfl, (count "constructor" false).trans ?_, room.mpr ?_⟩
  all_goals decide

-- But a function that is assigned to `A.prototype.constructor` becomes a second constructor.
theorem merged_constructor :
    let f := extended "constructor"
    f.check = .ok () ∧ f.isShaped ∧ (∀ cls, f.kind? cls = some .classDefinition → f.IsLegal cls) ∧
    ∃ summary g, f.convert {} (some 0) = (.ok summary, g) ∧
      g.Reaches (some 0) (some 1) ∧ g.kind? (some 1) = some .classDefinition ∧
      g.countNamed (some 1) "constructor" false = 2 ∧ ¬g.IsLegal (some 1) := by
  refine ⟨extended_check.right, rfl, forall_of_kind (by decide), _, _,
    convert_of_foldScript extended_check.right rfl rfl, ⟨[0], ?_⟩, ?_⟩
  all_goals decide

end ClassLift
