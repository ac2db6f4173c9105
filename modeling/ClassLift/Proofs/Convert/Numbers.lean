import ClassLift.Proofs.Convert.Preservation
import ClassLift.Proofs.Tree.Numbers

/-!
The numbers in the nodes that a conversion leaves. It adds texts, and nothing else that has a number of its own.
-/

namespace ClassLift

namespace Forest

variable {f g : Forest} {r p : Ref} {cs : List Ref} {n : Node} {k : Kind} {d : Nat}

namespace Small

/- Changes of a node -/

theorem modify {h : Node → Node} (s : f.Small) (r : Ref) (hn : ∀ n : Node, n.Small → (h n).Small) :
    (f.modify r h).Small := by
  cases r
  case none => exact s
  case some i =>
    intro n mem
    obtain ⟨j, hj⟩ := Array.mem_iff_getElem?.mp mem
    rw [Forest.modify, Array.getElem?_modify] at hj
    split at hj
    case isTrue =>
      obtain ⟨m, hm, rfl⟩ := Option.map_eq_some_iff.mp hj
      exact hn m (s m (Array.mem_iff_getElem?.mpr ⟨j, hm⟩))
    case isFalse => exact s n (Array.mem_iff_getElem?.mpr ⟨j, hj⟩)

-- Most changes leave the numbers alone.
theorem modify_same {h : Node → Node} (s : f.Small) (r : Ref)
    (same : ∀ n, (h n).kind = n.kind ∧ (h n).data = n.data ∧ (h n).doc = n.doc) : (f.modify r h).Small := by
  refine s.modify r fun n small => ?_
  have ⟨kind, data, doc⟩ := same n
  exact ⟨by rw [kind, data]; exact small.data, by rw [doc]; exact small.doc⟩

theorem setParent (s : f.Small) (r p : Ref) : (f.setParent r p).Small :=
  s.modify_same r fun _ => ⟨rfl, rfl, rfl⟩

theorem setChildren (s : f.Small) (r : Ref) (cs : List Ref) : (f.setChildren r cs).Small :=
  s.modify_same r fun _ => ⟨rfl, rfl, rfl⟩

theorem setParents (s : f.Small) (cs : List Ref) (p : Ref) : (f.setParents cs p).Small := by
  induction cs generalizing f
  case nil => exact s
  case cons c cs ih => exact ih (s.setParent c p)

theorem addFlags (s : f.Small) (r : Ref) (flags : Flags) : (f.addFlags r flags).Small :=
  s.modify_same r fun _ => ⟨rfl, rfl, rfl⟩

theorem copySpan (s : f.Small) (source target : Ref) : (f.copySpan source target).Small := by
  unfold Forest.copySpan
  split
  case h_1 => exact s.modify_same target fun _ => ⟨rfl, rfl, rfl⟩
  case h_2 => exact s

theorem setDoc {doc : Option Nat} (s : f.Small) (r : Ref) (hd : ∀ d ∈ doc, d < UInt32.size) :
    (f.setDoc r doc).Small :=
  s.modify r fun _ small => ⟨small.data, hd⟩

theorem markPromoted (s : f.Small) (function r : Ref) : (f.markPromoted function r).Small :=
  (s.copySpan function r).addFlags r _

/- New nodes -/

theorem push (s : f.Small) (hn : n.Small) (cs : List Ref) : (f.push n cs).1.Small := by
  have pushed : Forest.Small { f with nodes := f.nodes.push n } := fun m mem => by
    rcases Array.mem_push.mp mem with mem | rfl
    case inl => exact s m mem
    case inr => exact hn
  exact (pushed.setParents cs _).setChildren _ cs

theorem add (s : f.Small) (k : Kind) (cs : List Ref) : (f.add k cs).1.Small :=
  s.push ⟨by simp, by simp⟩ cs

theorem addText (s : f.Small) (hk : k.hasText) (text : String) (cs : List Ref) : (f.addText k text cs).1.Small :=
  push (f := { f with texts := f.texts.push text }) s ⟨fun _ _ => .inl hk, by simp⟩ cs

theorem addIdentifier (s : f.Small) (text : String) : (f.addIdentifier text).1.Small :=
  s.addText rfl text []

theorem addMember (s : f.Small) (name : String) (isStatic : Bool) (function : Ref) :
    (f.addMember name isStatic function).1.Small := by
  have added := s.addText (k := .memberFunction) rfl name [function]
  simp only [Forest.addMember]
  split
  case isTrue => exact added.addFlags _ _
  case isFalse => exact added

theorem addPropertyAccesses {chain : Forest × Ref} (s : chain.1.Small) (names : List String) :
    (names.foldl (fun (f, object) name => f.addPropertyAccess object name) chain).1.Small := by
  induction names generalizing chain
  case nil => exact s
  case cons name names ih => exact ih ((s.addIdentifier name).add _ _)

theorem addPath (s : f.Small) (segments : List String) : (f.addPath segments).1.Small := by
  cases segments
  case nil => exact s
  case cons head rest => exact (s.addIdentifier head).addPropertyAccesses rest

theorem addSuperclass (s : f.Small) (doc : Nat) : (f.addSuperclass doc).1.Small := by
  unfold Forest.addSuperclass
  split
  case h_1 g chain found =>
    obtain ⟨name, -, found⟩ := Option.map_eq_some_iff.mp found
    unfold buildPath at found
    split at found
    case h_1 segments _ =>
      have added := s.addPath segments
      rwa [found] at added
    case h_2 => cases found
  case h_2 => exact s.add _ _

theorem addNameUnlessGiven (s : f.Small) (name : Ref) : (f.addNameUnlessGiven name).1.Small := by
  unfold Forest.addNameUnlessGiven
  split
  case h_1 =>
    split
    case isTrue => exact s.add _ _
    case isFalse => exact s
  case h_2 => exact s.add _ _

theorem addPromoted (s : f.Small) (function name parameters body : Ref) (hd : d < UInt32.size) :
    (f.addPromoted function name parameters body d).1.Small := by
  unfold Forest.addPromoted addFunction addClass
  refine Small.markPromoted (Small.add (Small.add (Small.setDoc (Small.markPromoted ?_ _ _) _ ?_) _ _) _ _) _ _
  · exact ((((s.addNameUnlessGiven name).addSuperclass d).add _ _).add _ _ |>.copySpan _ _).addMember _ _ _
  · exact fun _ hi => Option.some.inj hi ▸ hd

/- Edits -/

theorem detach (s : f.Small) (h : f.detach r = .ok g) : g.Small := by
  obtain ⟨-, -, -, -, rfl⟩ := detach_eq_ok.mp h
  exact (s.setChildren _ _).setParent _ _

theorem appendChild {c : Ref} (s : f.Small) (h : f.appendChild p c = .ok g) : g.Small := by
  obtain ⟨-, rfl⟩ := appendChild_eq_ok.mp h
  exact (s.setChildren _ _).setParent _ _

theorem replaceWith {old new : Ref} (s : f.Small) (h : f.replaceWith old new = .ok g) : g.Small := by
  obtain ⟨-, -, -, rfl⟩ := replaceChild_eq_ok.mp (replaceWith_eq_ok.mp h).right
  exact ((s.setChildren _ _).setParent _ _).setParent _ _

theorem detachChildren (s : f.Small) (h : f.detachChildren r = .ok (g, cs)) : g.Small := by
  obtain ⟨-, same⟩ := detachChildren_ok h
  cases same
  exact (s.setChildren _ _).setParents _ _

/- Documentation -/

theorem docIndex? (s : f.Small) (h : f.docIndex? r = some d) : d < UInt32.size := by
  obtain ⟨n, hn, hd⟩ := Option.bind_eq_some_iff.mp h
  cases r
  case none => cases hn
  case some i => exact (s n (Array.mem_iff_getElem?.mpr ⟨i, hn⟩)).doc d hd

theorem lt_of_mem_or {o o' : Option Nat} (h : ∀ d ∈ o, d < UInt32.size) (h' : ∀ d ∈ o', d < UInt32.size) :
    ∀ d ∈ o.or o', d < UInt32.size := by
  cases o
  case none => simpa using h'
  case some => simpa using h

theorem boundDoc? (s : f.Small) : ∀ d ∈ f.boundDoc? r, d < UInt32.size := by
  have index (r : Ref) : ∀ d ∈ f.docIndex? r, d < UInt32.size := fun _ => s.docIndex?
  have statement (r : Ref) (k : Kind) : ∀ d ∈ f.statementDoc? r k, d < UInt32.size := by
    intro d hd
    simp only [statementDoc?] at hd
    split at hd
    case isTrue => exact index _ d hd
    case isFalse => cases hd
  have absent : ∀ d ∈ (none : Option Nat), d < UInt32.size := by simp
  simp only [Forest.boundDoc?]
  split
  case h_1 =>
    split
    case isTrue =>
      refine lt_of_mem_or (index _) ?_
      split
      case isTrue => exact statement _ _
      case isFalse => exact absent
    case isFalse => exact absent
  case h_2 =>
    split
    case isTrue => exact lt_of_mem_or (index _) (statement _ _)
    case isFalse => exact absent
  case h_3 => exact index _
  case h_4 => exact absent

theorem constructorDoc? (s : f.Small) (h : f.constructorDoc? r = some d) : d < UInt32.size :=
  lt_of_mem_or (fun _ => s.docIndex?) s.boundDoc? d (Option.filter_eq_some_iff.mp h).left

end Small

end Forest

/- Visits -/

open Forest

variable {options : Options} {f g : Forest} {r cls : Ref} {m : MemberAssignment} {member : Ref}
variable {done ss : List Ref} {log : Log} {w w' : Workspace} {summary : Summary}

namespace Workspace

theorem small_promote {doc : Nat} (s : w.forest.Small) (hd : doc < UInt32.size) :
    (w.promote r doc).2.forest.Small := by
  unfold promote
  split
  case h_1 => exact s
  case h_2 =>
    simp only
    split
    case h_1 => exact s
    case h_2 =>
      unfold promoteAs
      split
      case h_1 bare name parameters body parts =>
        have added := (s.detachChildren parts).addPromoted r name parameters body hd
        simp only
        split
        case h_1 g placed => simpa using added.replaceWith placed
        case h_2 => exact added
      case h_2 | h_3 => exact s

theorem small_moveInto {members : Ref} {name : String} {isStatic : Bool} (s : w.forest.Small)
    (hd : ∀ d ∈ m.doc, d < UInt32.size) : (w.moveInto members m name isStatic).2.forest.Small := by
  unfold moveInto
  split
  case h_1 => exact s
  case h_2 f₁ first =>
    have s := s.detach first
    split
    case h_1 => exact s
    case h_2 f₂ second =>
      have s := (s.detach second).addMember name isStatic m.value
      rcases added : f₂.addMember name isStatic m.value with ⟨f₃, member⟩
      rw [added] at s
      have s := (s.copySpan m.statement member).setDoc member hd
      simp only
      split
      case h_1 => exact s
      case h_2 g last => exact s.appendChild last

theorem small_merge (s : w.forest.Small) (hd : ∀ d ∈ m.doc, d < UInt32.size) :
    (w.merge options m).2.forest.Small := by
  unfold merge
  simp only
  repeat' split
  all_goals first | exact s | exact small_moveInto s hd

theorem small_visit (s : w.forest.Small) : (w.visit options r).2.forest.Small := by
  unfold visit
  split
  case h_1 => simpa using s
  case h_2 =>
    split
    case h_1 => exact s
    case h_2 doc hd => exact small_promote s (s.constructorDoc? hd)
  case h_3 =>
    split
    case isTrue =>
      split
      case h_1 => exact s
      case h_2 m hm =>
        have view := (MemberAssignment.ofStatement?_eq_some.mp hm).right
        split
        case isTrue =>
          refine small_merge s ?_
          rw [view.doc]
          have index (r : Ref) : ∀ d ∈ w.forest.docIndex? r, d < UInt32.size := fun _ => s.docIndex?
          exact Small.lt_of_mem_or (Small.lt_of_mem_or (index _) (index _)) (index _)
        case isFalse => exact s
    case isFalse => exact s
  case h_4 => exact s

end Workspace

theorem Run.small (run : Run options f done log w) (s : f.Small) : w.forest.Small := by
  induction run
  case start => exact s
  case visit w _ r _ _ visit ih =>
    have visited : (w.visit options r).2.forest.Small := Workspace.small_visit ih
    rwa [visit] at visited

theorem Series.small (h : Series options ss f log summary g) (s : f.Small) : g.Small := by
  induction h
  case nil => exact s
  case cons valid _ run _ ih => exact ih ((run_of_ok valid run).right.small s)

end ClassLift
