import ClassLift.Proofs.Json.Returns
import ClassLift.Proofs.Tree.Edits
import ClassLift.Proofs.Tree.RoundTrip

/-!
The numbers in the nodes of a document that has been read. They fit 32 bits, since they were written with so
many.
-/

namespace ClassLift

open Json Reader

-- The number of a text is left to the size of the pool.
structure Node.Small (n : Node) : Prop where
  data : ∀ d ∈ n.data, n.kind.hasText ∨ d < nothing
  doc  : ∀ d ∈ n.doc, d < UInt32.size

namespace Forest

variable {f g : Forest} {r p : Ref} {cs : List Ref} {n : Node} {doc : Option Nat}

def Small (f : Forest) : Prop :=
  ∀ n ∈ f.nodes, n.Small

theorem Small.fits (s : f.Small) (v : f.Valid) (size : f.size < nothing) (texts : f.texts.size ≤ nothing) :
    f.Fits where
  size := size
  data n hn d hd := by
    rcases (s n hn).data d hd with hk | small
    case inl =>
      have ⟨i, hi⟩ := Array.mem_iff_getElem?.mp hn
      have label : f.label? (some i) = some n.bare := by simp [label?, hi]
      exact Nat.lt_of_lt_of_le (v.text_lt label hk hd) texts
    case inr => exact small
  doc n hn := (s n hn).doc

end Forest

/- Reading -/

theorem Ref.reader_returns : Ref.reader.Returns Ref.Fits := by
  refine (returns_true Reader.word).map fun n _ i hi => ?_
  have lt : n.toNat < UInt32.size := n.toNat_lt
  unfold ofNumber at hi
  split at hi
  case isTrue => cases hi
  case isFalse ne =>
    obtain rfl := Option.some.inj hi
    exact Nat.lt_of_le_of_ne (Nat.le_of_lt_succ lt) ne

-- What a member other than the data sets is nothing that is kept.
theorem Node.reader_returns : Node.reader.Returns Node.Small := by
  refine returns_record (K := fun d : Node.Draft => ∀ r ∈ d.data, r.Fits) ?members (by simp) ?complete
  case members =>
    simp only [Node.jsonMembers, List.forall_mem_cons, List.not_mem_nil, false_implies, implies_true, and_true]
    refine ⟨?_, ?_, ?_, ?_, ?data, ?_, ?_, ?_⟩
    case data =>
      refine keeps_of Ref.reader_returns fun r hr d _ r' hr' => ?_
      exact Option.some.inj hr' ▸ hr
    all_goals exact keeps_of (returns_true _) fun _ _ _ keep => keep
  case complete =>
    intro d n keep given
    obtain ⟨k, -, rfl⟩ := Option.map_eq_some_iff.mp given
    constructor
    case data =>
      intro i hi
      cases hd : d.data
      case none => simp [hd] at hi
      case some r => exact .inr <| keep r hd i (by simpa [hd] using hi)
    case doc =>
      intro i hi
      obtain ⟨n, -, rfl⟩ := Option.map_eq_some_iff.mp hi
      exact n.toNat_lt

theorem Forest.reader_returns : Forest.reader.Returns Forest.Small := by
  refine returns_record (K := fun d : Forest.Draft => ∀ ns ∈ d.nodes, ∀ n ∈ ns, n.Small) ?members (by simp)
    ?complete
  case members =>
    simp only [Forest.jsonMembers, List.forall_mem_cons, List.not_mem_nil, false_implies, implies_true, and_true]
    refine ⟨?nodes, ?_, ?_, ?_⟩
    case nodes =>
      refine keeps_of Node.reader_returns.list fun ns small d _ ns' hns => ?_
      exact Option.some.inj hns ▸ small
    all_goals exact keeps_of (returns_true _) fun _ _ _ keep => keep
  case complete =>
    intro d f keep given
    obtain ⟨ns, hns, rfl⟩ := Option.map_eq_some_iff.mp given
    exact fun n hn => keep ns hns n (by simpa using hn)

theorem Document.reader_returns : Document.reader.Returns (·.forest.Small) := by
  refine returns_record (K := fun d : Document.Draft => ∀ f ∈ d.forest, f.Small) ?members (by simp) ?complete
  case members =>
    simp only [Document.jsonMembers, List.forall_mem_cons, List.not_mem_nil, false_implies, implies_true, and_true]
    constructor
    case left => exact keeps_of (returns_true _) fun _ _ _ keep => keep
    case right =>
      refine keeps_of Forest.reader_returns fun f small d _ f' hf => ?_
      exact Option.some.inj hf ▸ small
  case complete =>
    intro d document keep given
    simp only [Document.Draft.finish, Option.bind_eq_bind, Option.bind_eq_some_iff] at given
    obtain ⟨_, -, f, hf, given⟩ := given
    cases given
    exact keep f hf

theorem Document.of_ofText {text : String} {d : Document} (ok : Document.ofText text = .ok d) :
    d.forest.Has d.root ∧ d.forest.check = .ok () ∧ d.forest.Small := by
  unfold Document.ofText at ok
  split at ok
  case h_1 e read =>
    have small := Document.reader_returns.read read
    simp only [accept, Forest.bind_eq_ok, Forest.throw_bind, Forest.unless_throw_eq_ok] at ok
    obtain ⟨found, _, checked, same⟩ := ok
    cases same
    exact ⟨Option.isSome_iff_ne_none.mpr (by simpa using found), checked, small⟩
  case h_2 => cases ok

end ClassLift
