import ClassLift.Proofs.Tree.Valid

/-!
Forests in which every node has the children that its kind calls for.
-/

namespace ClassLift

namespace Kind

-- The kinds of the children that a node has. Nothing is asked of an expression, and nothing of the
-- lists whose length and contents are open.
def accepts : Kind → List (Option Kind) → Bool
  | root, children => children.all (· == some script)
  | empty, [] | identifier, [] | stringLiteral, [] | numericLiteral, [] | thisKeyword, [] => true
  | propertyAccess, [_, some identifier] => true
  | assignment, [_, _] => true
  | call, _ :: _ => true
  | function, [some identifier, some parameterList, some block] => true
  | function, [some empty, some parameterList, some block] => true
  | returnStatement, [] | returnStatement, [_] => true
  | expressionStatement, [_] => true
  | variableStatement, children => children.all (· == some variableDeclaration)
  | variableDeclaration, [some identifier] | variableDeclaration, [some identifier, _] => true
  | propertyAssignment, [_] => true
  | classDefinition, [some identifier, _, some classMembers] => true
  | classDefinition, [some empty, _, some classMembers] => true
  | memberFunction, [some function] => true
  | script, _ | parameterList, _ | block, _ | objectLiteral, _ | classMembers, _ => true
  | _, _ => false

-- The same, but for lists of members: what is in them is asked for, too.
def permits : Kind → List (Option Kind) → Bool
  | classMembers, children => children.all (· == some memberFunction)
  | k, children => k.accepts children

-- The kinds whose nodes have nothing below them.
def isLeaf : Kind → Bool
  | empty | identifier | stringLiteral | numericLiteral | thisKeyword => true
  | _ => false

variable {children : List (Option Kind)}

theorem accepts_leaf {k : Kind} (hk : k.isLeaf) (h : k.accepts children) : children = [] := by
  cases children
  case nil => rfl
  case cons => cases k <;> simp [accepts, isLeaf] at h hk

theorem accepts_propertyAccess (h : propertyAccess.accepts children) :
    ∃ object, children = [object, some identifier] :=
  match children, h with
  | [object, some identifier], _ => ⟨object, rfl⟩

theorem accepts_function (h : function.accepts children) :
    ∃ name, (name = identifier ∨ name = empty) ∧
      children = [some name, some parameterList, some block] :=
  match children, h with
  | [some identifier, some parameterList, some block], _ => ⟨_, .inl rfl, rfl⟩
  | [some empty, some parameterList, some block], _ => ⟨_, .inr rfl, rfl⟩

theorem accepts_expressionStatement (h : expressionStatement.accepts children) :
    ∃ expression, children = [expression] :=
  match children, h with
  | [expression], _ => ⟨expression, rfl⟩

theorem accepts_assignment (h : assignment.accepts children) :
    ∃ target value, children = [target, value] :=
  match children, h with
  | [target, value], _ => ⟨target, value, rfl⟩

theorem accepts_classDefinition (h : classDefinition.accepts children) :
    ∃ name superclass, (name = identifier ∨ name = empty) ∧
      children = [some name, superclass, some classMembers] :=
  match children, h with
  | [some identifier, superclass, some classMembers], _ => ⟨_, superclass, .inl rfl, rfl⟩
  | [some empty, superclass, some classMembers], _ => ⟨_, superclass, .inr rfl, rfl⟩

theorem accepts_variableDeclaration (h : variableDeclaration.accepts children) :
    children = [some identifier] ∨ ∃ value, children = [some identifier, value] :=
  match children, h with
  | [some identifier], _ => .inl rfl
  | [some identifier, value], _ => .inr ⟨value, rfl⟩

theorem accepts_memberFunction (h : memberFunction.accepts children) : children = [some function] :=
  match children, h with
  | [some function], _ => rfl

theorem accepts_of_permits {k : Kind} (h : k.permits children) : k.accepts children := by
  cases k
  case classMembers => rfl
  all_goals exact h

-- What may be below a node, other than a member, still may be if some of the functions become classes.
theorem permits_of_classes {k : Kind} {cs : List α} {kind kind' : α → Option Kind}
    (h : k.permits (cs.map kind)) (hk : k ≠ memberFunction)
    (become : ∀ c ∈ cs, kind' c = kind c ∨ kind c = some function ∧ kind' c = some classDefinition) :
    k.permits (cs.map kind') := by
  have same {c : α} {k : Kind} (hc : c ∈ cs) (h : kind c = some k) (hk : k ≠ function) :
      kind' c = some k := by
    rcases become c hc with e | ⟨e, -⟩
    · exact e.trans h
    · exact absurd (Option.some.inj (h.symm.trans e)) hk
  have all {k : Kind} (hk : k ≠ function) (h : (cs.map kind).all (· == some k)) :
      (cs.map kind').all (· == some k) := by
    simp only [List.all_map, List.all_eq_true, Function.comp_apply, beq_iff_eq] at h ⊢
    exact fun c hc => same hc (h c hc) hk
  cases k
  case memberFunction => exact absurd rfl hk
  case root | variableStatement | classMembers => exact all (by simp) h
  case propertyAccess =>
    obtain ⟨_, e⟩ := accepts_propertyAccess h
    obtain ⟨object, _, rfl, -, e⟩ := List.map_eq_cons_iff.mp e
    obtain ⟨property, _, rfl, hp, e⟩ := List.map_eq_cons_iff.mp e
    obtain rfl := List.map_eq_nil_iff.mp e
    simp [permits, accepts, same (c := property) (by simp) hp]
  case variableDeclaration =>
    rcases accepts_variableDeclaration h with e | ⟨_, e⟩
    case inl =>
      obtain ⟨name, _, rfl, hn, e⟩ := List.map_eq_cons_iff.mp e
      obtain rfl := List.map_eq_nil_iff.mp e
      simp [permits, accepts, same (c := name) (by simp) hn]
    case inr =>
      obtain ⟨name, _, rfl, hn, e⟩ := List.map_eq_cons_iff.mp e
      obtain ⟨value, _, rfl, -, e⟩ := List.map_eq_cons_iff.mp e
      obtain rfl := List.map_eq_nil_iff.mp e
      simp [permits, accepts, same (c := name) (by simp) hn]
  case function =>
    obtain ⟨_, hn, e⟩ := accepts_function h
    obtain ⟨name, _, rfl, kn, e⟩ := List.map_eq_cons_iff.mp e
    obtain ⟨parameters, _, rfl, kp, e⟩ := List.map_eq_cons_iff.mp e
    obtain ⟨body, _, rfl, kb, e⟩ := List.map_eq_cons_iff.mp e
    obtain rfl := List.map_eq_nil_iff.mp e
    rcases hn with rfl | rfl <;>
      simp [permits, accepts, same (c := name) (by simp) kn, same (c := parameters) (by simp) kp,
        same (c := body) (by simp) kb]
  case classDefinition =>
    obtain ⟨_, _, hn, e⟩ := accepts_classDefinition h
    obtain ⟨name, _, rfl, kn, e⟩ := List.map_eq_cons_iff.mp e
    obtain ⟨superclass, _, rfl, -, e⟩ := List.map_eq_cons_iff.mp e
    obtain ⟨members, _, rfl, km, e⟩ := List.map_eq_cons_iff.mp e
    obtain rfl := List.map_eq_nil_iff.mp e
    rcases hn with rfl | rfl <;>
      simp [permits, accepts, same (c := name) (by simp) kn, same (c := members) (by simp) km]
  -- Of the others only the number of children matters.
  all_goals
    rcases cs with _ | ⟨a, _ | ⟨b, _ | ⟨c, cs⟩⟩⟩ <;> simp [permits, accepts] at h ⊢

end Kind

namespace Forest

variable {f : Forest} {r c s x : Ref} {k : Kind}

-- Whether a node has the children that its kind calls for.
def isFormed (f : Forest) (r : Ref) : Bool :=
  match f.kind? r with
  | none => true
  | some k => k.accepts ((f.children r).map f.kind?)

-- A root is at the top, and a script is at the top or below a root.
def fits (f : Forest) (r : Ref) : Bool :=
  match f.kind? r with
  | none => true
  | some k =>
    k.accepts ((f.children r).map f.kind?) &&
      (k != .root || f.parent r == none) &&
      (k != .script || f.parent r == none || f.isKind (f.parent r) .root)

def isShaped (f : Forest) : Bool :=
  (List.range f.size).all fun i => f.fits (some i)

theorem fits_of_isShaped (h : f.isShaped) (r : Ref) : f.fits r := by
  by_cases hr : f.Has r
  case pos =>
    obtain ⟨i, hi, rfl⟩ := has_iff.mp hr
    exact List.all_eq_true.mp h i (List.mem_range.mpr hi)
  case neg =>
    cases hk : f.kind? r
    case none => simp [fits, hk]
    case some => exact absurd (has_of_kind? hk) hr

-- All nodes below a node have the children that their kinds call for.
def Formed (f : Forest) (s : Ref) : Prop :=
  ∀ r, f.Contains s r → f.isFormed r

-- The same, with lists that have only members in them.
def isGrammatical (f : Forest) (r : Ref) : Bool :=
  match f.kind? r with
  | none => true
  | some k => k.permits ((f.children r).map f.kind?)

def Grammatical (f : Forest) (s : Ref) : Prop :=
  ∀ r, f.Contains s r → f.isGrammatical r

-- The tree below a node has the right shape.
def Shaped (f : Forest) (s : Ref) : Prop :=
  ∀ r, f.Contains s r → f.fits r

theorem shaped_of_isShaped (h : f.isShaped) (s : Ref) : f.Shaped s := fun r _ =>
  fits_of_isShaped h r

theorem isFormed_iff : f.isFormed r ↔ ∀ k, f.kind? r = some k → k.accepts ((f.children r).map f.kind?) := by
  unfold isFormed
  split <;> simp_all

theorem isFormed_of_fits (h : f.fits r) : f.isFormed r :=
  isFormed_iff.mpr fun k hk => by
    simp only [fits, hk, Bool.and_eq_true] at h
    exact h.left.left

theorem isFormed_of_isShaped (h : f.isShaped) (r : Ref) : f.isFormed r :=
  isFormed_of_fits (fits_of_isShaped h r)

theorem Shaped.formed (h : f.Shaped s) : f.Formed s := fun r hr =>
  isFormed_of_fits (h r hr)

theorem isGrammatical_iff :
    f.isGrammatical r ↔ ∀ k, f.kind? r = some k → k.permits ((f.children r).map f.kind?) := by
  unfold isGrammatical
  split <;> simp_all

theorem isGrammatical_of_kind (hk : f.kind? r = some k)
    (h : k.permits ((f.children r).map f.kind?)) : f.isGrammatical r :=
  isGrammatical_iff.mpr fun _ e => Option.some.inj (hk.symm.trans e) ▸ h

theorem permits_of_grammatical (h : f.isGrammatical r) (hk : f.kind? r = some k) :
    k.permits ((f.children r).map f.kind?) :=
  isGrammatical_iff.mp h k hk

theorem grammatical_of_all (h : (List.range f.size).all fun i => f.isGrammatical (some i)) (s : Ref) :
    f.Grammatical s := fun r _ => isGrammatical_iff.mpr fun _ hk => by
  obtain ⟨i, hi, rfl⟩ := has_iff.mp (has_of_kind? hk)
  exact permits_of_grammatical (List.all_eq_true.mp h i (List.mem_range.mpr hi)) hk

theorem Grammatical.formed (h : f.Grammatical s) : f.Formed s := fun r hr =>
  isFormed_iff.mpr fun _ hk => Kind.accepts_of_permits (permits_of_grammatical (h r hr) hk)

theorem Formed.below (h : f.Formed s) (hr : f.Contains s r) : f.Formed r := fun x hx =>
  h x (hr.trans hx)

theorem accepts_of_formed (h : f.isFormed r) (hk : f.kind? r = some k) :
    k.accepts ((f.children r).map f.kind?) :=
  isFormed_iff.mp h k hk

theorem parent_root_of_fits (h : f.fits r) (hk : f.kind? r = some .root) : f.parent r = none := by
  simp [fits, hk] at h
  exact h.right

theorem parent_script_of_fits (h : f.fits r) (hk : f.kind? r = some .script) :
    f.parent r = none ∨ f.kind? (f.parent r) = some .root := by
  simp [fits, hk, isKind_iff] at h
  exact h.right

theorem children_leaf (h : f.isFormed r) (hk : f.kind? r = some k) (hl : k.isLeaf) :
    f.children r = [] := by
  simpa using Kind.accepts_leaf hl (accepts_of_formed h hk)

theorem children_propertyAccess (h : f.isFormed r) (hk : f.kind? r = some .propertyAccess) :
    ∃ object property, f.children r = [object, property] ∧ f.kind? property = some .identifier := by
  obtain ⟨_, e⟩ := Kind.accepts_propertyAccess (accepts_of_formed h hk)
  simp only [List.map_eq_cons_iff, List.map_eq_nil_iff] at e
  obtain ⟨object, _, hc, -, property, _, rfl, hp, rfl⟩ := e
  exact ⟨object, property, hc, hp⟩

theorem children_function (h : f.isFormed r) (hk : f.kind? r = some .function) :
    ∃ name parameters body, f.children r = [name, parameters, body] ∧
      (f.kind? name = some .identifier ∨ f.kind? name = some .empty) ∧
      f.kind? parameters = some .parameterList ∧ f.kind? body = some .block := by
  obtain ⟨k, hn, e⟩ := Kind.accepts_function (accepts_of_formed h hk)
  simp only [List.map_eq_cons_iff, List.map_eq_nil_iff] at e
  obtain ⟨name, _, hc, kind, parameters, _, rfl, hp, body, _, rfl, hb, rfl⟩ := e
  refine ⟨name, parameters, body, hc, ?_, hp, hb⟩
  exact hn.imp (fun e : k = .identifier => e ▸ kind) (fun e : k = .empty => e ▸ kind)

theorem kind_of_part (h : f.isFormed r) (hk : f.kind? r = some .function) (hc : c ∈ f.children r) :
    f.kind? c ∈ [some Kind.identifier, some .empty, some .parameterList, some .block] := by
  obtain ⟨name, parameters, body, parts, kn, kp, kb⟩ := children_function h hk
  simp only [parts, List.mem_cons, List.not_mem_nil, or_false] at hc
  rcases hc with rfl | rfl | rfl
  · rcases kn with kn | kn <;> simp [kn]
  · simp [kp]
  · simp [kb]

theorem children_expressionStatement (h : f.isFormed r)
    (hk : f.kind? r = some .expressionStatement) : ∃ expression, f.children r = [expression] := by
  obtain ⟨_, e⟩ := Kind.accepts_expressionStatement (accepts_of_formed h hk)
  simp only [List.map_eq_cons_iff, List.map_eq_nil_iff] at e
  obtain ⟨expression, _, hc, -, rfl⟩ := e
  exact ⟨expression, hc⟩

theorem children_assignment (h : f.isFormed r) (hk : f.kind? r = some .assignment) :
    ∃ target value, f.children r = [target, value] := by
  obtain ⟨_, _, e⟩ := Kind.accepts_assignment (accepts_of_formed h hk)
  simp only [List.map_eq_cons_iff, List.map_eq_nil_iff] at e
  obtain ⟨target, _, hc, -, value, _, rfl, -, rfl⟩ := e
  exact ⟨target, value, hc⟩

theorem children_classDefinition (h : f.isFormed r) (hk : f.kind? r = some .classDefinition) :
    ∃ name superclass members, f.children r = [name, superclass, members] ∧
      f.kind? members = some .classMembers := by
  obtain ⟨_, _, -, e⟩ := Kind.accepts_classDefinition (accepts_of_formed h hk)
  simp only [List.map_eq_cons_iff, List.map_eq_nil_iff] at e
  obtain ⟨name, _, hc, -, superclass, _, rfl, -, members, _, rfl, hm, rfl⟩ := e
  exact ⟨name, superclass, members, hc, hm⟩

theorem children_memberFunction (h : f.isFormed r) (hk : f.kind? r = some .memberFunction) :
    ∃ function, f.children r = [function] ∧ f.kind? function = some .function := by
  have e := Kind.accepts_memberFunction (accepts_of_formed h hk)
  simp only [List.map_eq_cons_iff, List.map_eq_nil_iff] at e
  obtain ⟨function, _, hc, hF, rfl⟩ := e
  exact ⟨function, hc, hF⟩

theorem members_of_kind (hk : f.kind? c = some .classDefinition) : f.members c = f.last c := by
  rw [members, if_pos (isKind_iff.mpr hk)]

theorem kind?_members (h : f.isFormed c) (hk : f.kind? c = some .classDefinition) :
    f.kind? (f.members c) = some .classMembers := by
  obtain ⟨_, _, members, hc, hm⟩ := children_classDefinition h hk
  simpa [members_of_kind hk, last, hc] using hm

-- No script lies below another.
theorem Shaped.eq_of_script (h : f.Shaped s) (hs : f.kind? s = some .script)
    (hr : f.kind? r = some .script) (hc : f.Contains s r) : r = s := by
  by_contra hn
  have hp := hc.parent_of_ne hn
  have hs' := (has_of_kind? hs).ne_none
  have root := (parent_script_of_fits (h r hc) hr).resolve_left (hp.ne_none hs')
  have top := parent_root_of_fits (h _ hp) root
  by_cases e : f.parent r = s
  case pos => simp [← e, root] at hs
  case neg => exact (hp.parent_of_ne e).ne_none hs' top

theorem Shaped.mem_children_script (h : f.Shaped s) (v : f.Valid) (hs : f.kind? s = some .script)
    (hc : f.Contains s r) (hr : f.kind? r ≠ some .script) (hp : f.kind? (f.parent r) = some .script) :
    r ∈ f.children s := by
  have above : f.Contains s (f.parent r) := hc.parent_of_ne fun e => hr (e ▸ hs)
  have e := h.eq_of_script hs hp above
  exact e ▸ v.mem_parent (has_of_kind? hp).ne_none

end Forest

end ClassLift
