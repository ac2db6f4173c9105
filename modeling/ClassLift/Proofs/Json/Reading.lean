import ClassLift.Proofs.Json.Settling
import ClassLift.Proofs.Json.Writing

/-!
What a reader makes of the tokens of a value. A record is read by filling a draft of it, one member
after the other.
-/

namespace ClassLift.Json

variable {α β σ : Type} {v : Value} {vs : List Value} {a : α} {as : List α} {b : β} {s s' : σ}

namespace Reader

variable {r : Reader α} {ms : List (Member σ)} {unknown : UnknownKey}

-- Whatever comes next, the reader takes exactly this value from the tokens.
def Reads (r : Reader α) (v : Value) (a : α) : Prop :=
  ∀ rest, r.run (v.tokens ++ rest) = .ok (a, rest)

theorem reads_iff_gives : r.Reads v a ↔ r.Gives v.asTree a := by
  rw [Reads, Gives, Value.tokens_asTree]

theorem Reads.mapExcept {f : α → Except Fault β} (h : r.Reads v a) (hf : f a = .ok b) :
    (r.mapExcept f).Reads v b :=
  reads_iff_gives.mpr <| (reads_iff_gives.mp h).mapExcept hf

theorem Reads.map (f : α → β) (h : r.Reads v a) : (r.map f).Reads v (f a) :=
  h.mapExcept rfl

theorem reads_bool (b : Bool) : bool.Reads (.bool b) b :=
  fun _ => rfl

theorem reads_text (s : String) : text.Reads (.text s) s :=
  fun _ => rfl

theorem reads_tag (s : String) : tag.Reads (.text s) s :=
  fun _ => rfl

theorem reads_word {n : Nat} (h : n < UInt32.size) : word.Reads (.number n) n.toUInt32 := by
  intro rest
  simp [word, single, Value.tokens, h, Except.map]

theorem reads_toNat (n : UInt32) : word.Reads (.number n.toNat) n := by
  have read := reads_word n.toNat_lt
  have same : n.toNat.toUInt32 = n := UInt32.ofNat_toNat
  rwa [same] at read

theorem Reads.orNull {γ : Type} {write : γ → Value} {f : γ → α} {o : Option γ}
    (h : ∀ c ∈ o, r.Reads (write c) (f c) ∧ write c ≠ .null) :
    r.orNull.Reads (.ofOption write o) (o.map f) := by
  cases o
  case none => exact fun _ => rfl
  case some c =>
    obtain ⟨reads, present⟩ := h c rfl
    refine reads_iff_gives.mpr <| (reads_iff_gives.mp reads).orNull ?_
    cases e : write c <;> simp_all [Value.asTree]

theorem reads_orNull_text (o : Option String) : text.orNull.Reads (.ofOption .text o) o := by
  have := Reads.orNull (r := text) (f := id) (o := o) fun s _ => ⟨reads_text s, by simp⟩
  rwa [Option.map_id] at this

theorem Reads.list (h : List.Forall₂ r.Reads vs as) : (list r).Reads (.array vs) as := by
  refine reads_iff_gives.mpr <| Gives.list ?_
  rw [Value.itemTrees_eq, List.forall₂_map_left_iff]
  exact h.imp fun _ _ => reads_iff_gives.mp

theorem Reads.list_map {f : α → Value} (h : ∀ a ∈ as, r.Reads (f a) a) :
    (Reader.list r).Reads (.array (as.map f)) as :=
  .list <| List.forall₂_map_left_iff.mpr (List.forall₂_same.mpr h)

/- Records -/

-- These members of an object fill the one draft up to the other.
inductive Fills (ms : List (Member σ)) : σ → List (String × Value) → σ → Prop
  | nil {s : σ} : Fills ms s [] s
  | cons {s s' : σ} {m : Member σ} {key : String} {v : Value} {update : σ → σ}
    {more : List (String × Value)} (named : ms.find? (·.key == key) = some m)
    (unread : m.isRead s = false) (reads : m.reader.Reads v update)
    (rest : Fills ms (update s) more s') : Fills ms s ((key, v) :: more) s'

theorem Fills.append {front back : List (String × Value)} {s'' : σ} (h : Fills ms s front s')
    (h' : Fills ms s' back s'') : Fills ms s (front ++ back) s'' := by
  induction h
  case nil => exact h'
  case cons named unread reads _ ih => exact .cons named unread reads (ih h')

theorem Fills.collects {members : List (String × Value)} (h : Fills ms s members s') :
    Collects ms unknown s (Value.memberTrees members) s' := by
  induction h
  case nil => exact .nil
  case cons named unread reads _ ih =>
    exact .cons (.known named unread (reads_iff_gives.mp reads)) ih

theorem Fills.reads_record {start : σ} {members : List (String × Value)} {finish : σ → Option α}
    (h : Fills ms start members s) (complete : finish s = some a) :
    (record ms unknown start finish).Reads (.object members) a :=
  reads_iff_gives.mpr <| h.collects.gives_record complete

-- A text that a value is written as is read as the value.
theorem Reads.read {l : Layout} (h : r.Reads v a) (spaced : l.Spaced) :
    r.read (v.render l) = .ok a := by
  have now := h []
  rw [List.append_nil] at now
  rw [Reader.read, Value.scan_render spaced, now]

end Reader

end ClassLift.Json
