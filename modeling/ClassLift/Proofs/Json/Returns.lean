import ClassLift.Json.Reader

/-!
What is known of the values that a reader gives, whatever the tokens are. Of a record it is what all of its
members keep of the draft that they fill.
-/

namespace ClassLift.Json.Reader

variable {α β σ : Type} {r : Reader α} {P : α → Prop} {Q : β → Prop} {K : σ → Prop} {s s' : σ}
variable {ms : List (Member σ)} {unknown : UnknownKey} {ts rest : List Token}

def Returns (r : Reader α) (P : α → Prop) : Prop :=
  ∀ ts a rest, r.run ts = .ok (a, rest) → P a

-- A change of a draft, that of a member, which keeps what is known of it.
def Keeps (K : σ → Prop) (m : Member σ) : Prop :=
  m.reader.Returns fun update => ∀ s, K s → K (update s)

theorem returns_true (r : Reader α) : r.Returns fun _ => True :=
  fun _ _ _ _ => trivial

theorem Returns.mapExcept {f : α → Except Fault β} (h : r.Returns P)
    (hf : ∀ a b, P a → f a = .ok b → Q b) : (r.mapExcept f).Returns Q := by
  intro ts b rest read
  simp only [Reader.mapExcept] at read
  split at read
  case h_1 a rest' ok =>
    cases given : f a
    case error => simp [given, Except.map] at read
    case ok b' =>
      rw [given] at read
      cases read
      exact hf a b (h _ _ _ ok) given
  case h_2 => cases read

theorem Returns.map {f : α → β} (h : r.Returns P) (hf : ∀ a, P a → Q (f a)) : (r.map f).Returns Q :=
  h.mapExcept fun a _ ha given => Except.ok.inj given ▸ hf a ha

/- Lists -/

theorem forall_mem_items {front as : List α} (h : r.Returns P) (before : ∀ a ∈ front, P a)
    (read : items r front ts = .ok (as, rest)) : ∀ a ∈ as, P a := by
  fun_induction items r front ts
  case case1 ok _ ih => exact ih (List.forall_mem_cons.mpr ⟨h _ _ _ ok, before⟩) read
  case case2 ok =>
    cases read
    intro a ha
    exact List.forall_mem_cons.mpr ⟨h _ _ _ ok, before⟩ a (List.mem_reverse.mp ha)
  all_goals cases read

theorem Returns.list (h : r.Returns P) : (list r).Returns (∀ a ∈ ·, P a) := by
  intro ts as rest read
  simp only [Reader.list] at read
  split at read
  case h_1 =>
    cases read
    simp
  case h_2 => exact forall_mem_items h (by simp) read
  case h_3 => cases read

/- Records -/

theorem keeps_of {γ : Type} {key : String} {get : σ → Option γ} {set : γ → σ → σ} {r : Reader γ}
    {P : γ → Prop} (h : r.Returns P) (hs : ∀ a, P a → ∀ s, K s → K (set a s)) :
    Keeps K (.of key get set r) :=
  h.map hs

section Draft

variable (h : ∀ m ∈ ms, Keeps K m) (start : K s)
include h start

theorem keep_member (read : member ms unknown s ts = .ok (s', rest)) : K s' := by
  fun_cases member ms unknown s ts
  case case2 m hm hn ts =>
    simp only [member, hm, hn] at read
    rcases given : m.reader.run ts with e | ⟨update, rest'⟩ <;> simp [given, Except.map] at read
    exact read.left ▸ h m (List.mem_of_find?_eq_some hm) _ _ _ given s start
  case case4 hm ts =>
    simp only [member, hm] at read
    rcases given : skip.run ts with e | ⟨⟨⟩, rest'⟩ <;> simp [given, Except.map] at read
    exact read.left ▸ start
  case case5 hm hne => simp [member, hm] at read
  all_goals simp_all [member]

theorem keep_members (read : members ms unknown s ts = .ok (s', rest)) : K s' := by
  fun_induction members ms unknown s ts
  case case1 hm _ ih => exact ih (keep_member h start hm) read
  case case2 hm =>
    cases read
    exact keep_member h start hm
  all_goals cases read

theorem keep_inOrder (read : inOrder ms s ts = .ok (s', rest)) : K s' := by
  fun_induction inOrder ms s ts
  case case2 m ms s ts update rest' given ih =>
    obtain ⟨first, more⟩ := List.forall_mem_cons.mp h
    exact ih more (first _ _ _ given s start) read
  case case3 m ms s ts update rest' given =>
    cases read
    exact h m (List.mem_cons_self ..) _ _ _ given s start
  all_goals cases read

theorem returns_draft : (draft ms unknown s).Returns K := by
  intro ts s' rest read
  simp only [draft] at read
  split at read
  case h_1 | h_3 =>
    cases read
    exact start
  case h_2 => exact keep_members h start read
  case h_4 => exact keep_inOrder h start read
  case h_5 => cases read

theorem returns_record {finish : σ → Option α} (complete : ∀ s a, K s → finish s = some a → P a) :
    (record ms unknown s finish).Returns P := by
  refine (returns_draft h start).mapExcept fun s a keep given => ?_
  split at given
  case h_1 found =>
    cases given
    exact complete s a keep found
  case h_2 => cases given

end Draft

theorem Returns.read {text : String} {a : α} (h : r.Returns P) (ok : r.read text = .ok a) : P a := by
  unfold Reader.read at ok
  split at ok
  case h_1 given =>
    cases ok
    exact h _ _ _ given
  all_goals cases ok

end ClassLift.Json.Reader
