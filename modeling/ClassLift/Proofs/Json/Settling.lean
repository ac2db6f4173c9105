import ClassLift.Json.Reader
import ClassLift.Proofs.Json.Grammar
import Mathlib.Data.List.Forall2

/-!
A reader takes a value from the tokens or refuses it. Which of the two it does is told by the value
alone, not by what comes after it. So lists and records are read by reading what they consist of.
-/

namespace ClassLift.Json

variable {α β σ : Type} {a a' : α} {b : β} {as : List α} {t : Tree} {ts : List Tree} {s s' : σ}
  {tokens rest : List Token}

-- A value is told from the end of a list, and from `null`, by its first token.
theorem Tree.tokens_eq_cons (t : Tree) : ∃ first more, t.tokens = first :: more ∧
    first ≠ .closeBracket ∧ (t ≠ .null → first ≠ .null) := by
  cases t <;> simp [Tree.tokens, encloseTokens]

namespace Reader

variable {r : Reader α}

-- Whatever comes next, the reader takes exactly this value from the tokens.
def Gives (r : Reader α) (t : Tree) (a : α) : Prop :=
  ∀ rest, r.run (t.tokens ++ rest) = .ok (a, rest)

def Refuses (r : Reader α) (t : Tree) : Prop :=
  ∀ rest, ∃ e, r.run (t.tokens ++ rest) = .error e

def Settled (r : Reader α) : Prop :=
  ∀ t, (∃ a, r.Gives t a) ∨ r.Refuses t

theorem Gives.eq (h : r.Gives t a) (h' : r.Gives t a') : a = a' := by
  have now := (h []).symm.trans (h' [])
  simp only [Except.ok.injEq, Prod.mk.injEq, and_true] at now
  exact now

theorem Gives.not_refuses (h : r.Gives t a) : ¬r.Refuses t := by
  intro refuses
  obtain ⟨e, he⟩ := refuses []
  cases (h []).symm.trans he

/- Single tokens -/

theorem settled_single {f : Token → Except Fault α} (array : ∃ e, f .openBracket = .error e)
    (object : ∃ e, f .openBrace = .error e) : (single f).Settled := by
  have scalar {t : Tree} {token : Token} (h : t.tokens = [token]) :
      (∃ a, (single f).Gives t a) ∨ (single f).Refuses t := by
    cases hf : f token
    case error e => exact .inr fun rest => ⟨e, by simp [h, single, hf, Except.map]⟩
    case ok a => exact .inl ⟨a, fun rest => by simp [h, single, hf, Except.map]⟩
  intro t
  cases t
  case array items =>
    obtain ⟨e, he⟩ := array
    exact .inr fun rest => ⟨e, by simp [Tree.tokens, encloseTokens, single, he, Except.map]⟩
  case object members =>
    obtain ⟨e, he⟩ := object
    exact .inr fun rest => ⟨e, by simp [Tree.tokens, encloseTokens, single, he, Except.map]⟩
  all_goals exact scalar rfl

theorem settled_bool : bool.Settled :=
  settled_single ⟨_, rfl⟩ ⟨_, rfl⟩

theorem settled_text : text.Settled :=
  settled_single ⟨_, rfl⟩ ⟨_, rfl⟩

theorem settled_word : word.Settled :=
  settled_single ⟨_, rfl⟩ ⟨_, rfl⟩

theorem settled_tag : tag.Settled := by
  intro t
  cases t
  case text value =>
    cases value
    case none => exact .inr fun _ => ⟨_, rfl⟩
    case some s => exact .inl ⟨s, fun _ => rfl⟩
  case object members =>
    -- Only the shape of the first member and whether there is a second one matter.
    match members with
    | [] => exact .inr fun _ => ⟨_, rfl⟩
    | [(some key, .null)] => exact .inl ⟨key, fun _ => rfl⟩
    | (none, t) :: more =>
      exact .inr fun _ => ⟨.malformed, by
        cases more <;> simp [Tree.tokens, Tree.memberTokens, encloseTokens, tag]⟩
    | (some key, .null) :: next :: more =>
      exact .inr fun _ => ⟨.malformed, by
        simp [Tree.tokens, Tree.memberTokens, encloseTokens, List.intercalate_cons_cons, tag]⟩
    | (some key, .bool _) :: more | (some key, .number _) :: more | (some key, .text _) :: more
    | (some key, .array _) :: more | (some key, .object _) :: more =>
      exact .inr fun _ => ⟨.malformed, by
        cases more <;>
          simp [Tree.tokens, Tree.memberTokens, encloseTokens, List.intercalate_cons_cons, tag]⟩
  all_goals exact .inr fun _ => ⟨_, rfl⟩

/- Readers made of readers -/

theorem Gives.mapExcept {f : α → Except Fault β} (h : r.Gives t a) (hf : f a = .ok b) :
    (r.mapExcept f).Gives t b := by
  intro rest
  simp [Reader.mapExcept, h rest, hf, Except.map]

theorem Gives.mapExcept_error {f : α → Except Fault β} {e : Fault} (h : r.Gives t a) (hf : f a = .error e) :
    (r.mapExcept f).Refuses t :=
  fun rest => ⟨e, by simp [Reader.mapExcept, h rest, hf, Except.map]⟩

theorem Refuses.mapExcept {f : α → Except Fault β} (h : r.Refuses t) : (r.mapExcept f).Refuses t := by
  intro rest
  obtain ⟨e, he⟩ := h rest
  exact ⟨e, by simp [Reader.mapExcept, he]⟩

theorem Settled.mapExcept {f : α → Except Fault β} (settled : r.Settled) : (r.mapExcept f).Settled := by
  intro t
  obtain ⟨a, gives⟩ | refuses := settled t
  case inr => exact .inr refuses.mapExcept
  case inl =>
    cases hf : f a
    case error => exact .inr (gives.mapExcept_error hf)
    case ok b => exact .inl ⟨b, gives.mapExcept hf⟩

theorem Settled.of_mapExcept {f : α → Except Fault β} (settled : r.Settled)
    (h : (r.mapExcept f).Gives t b) : ∃ a, r.Gives t a ∧ f a = .ok b := by
  obtain ⟨a, gives⟩ | refuses := settled t
  case inr => exact absurd refuses.mapExcept h.not_refuses
  case inl =>
    cases hf : f a
    case error => exact absurd (gives.mapExcept_error hf) h.not_refuses
    case ok b' =>
      obtain rfl := h.eq (gives.mapExcept hf)
      exact ⟨a, gives, hf⟩

theorem orNull_run (h : tokens.head? ≠ some .null) :
    r.orNull.run tokens = (r.run tokens).map fun (a, rest) => (some a, rest) := by
  simp only [Reader.orNull]
  split <;> simp_all

theorem Gives.orNull (h : r.Gives t a) (present : t ≠ .null) : r.orNull.Gives t (some a) := by
  obtain ⟨first, more, eq, -, ht⟩ := t.tokens_eq_cons
  intro rest
  rw [orNull_run (by simp [eq, ht present]), h rest]
  rfl

theorem Settled.orNull (settled : r.Settled) : r.orNull.Settled := by
  intro t
  by_cases present : t = .null
  case pos =>
    subst present
    exact .inl ⟨none, fun _ => rfl⟩
  case neg =>
    obtain ⟨a, gives⟩ | refuses := settled t
    case inl => exact .inl ⟨some a, gives.orNull present⟩
    case inr =>
      obtain ⟨first, more, eq, -, ht⟩ := t.tokens_eq_cons
      refine .inr fun rest => ?_
      obtain ⟨e, he⟩ := refuses rest
      exact ⟨e, by rw [orNull_run (by simp [eq, ht present]), he]; rfl⟩

/- Lists -/

theorem items_comma {bs : List α} (h : r.run tokens = .ok (a, .comma :: rest)) :
    items r bs tokens = items r (a :: bs) rest := by
  rw [items]
  split <;> simp_all

theorem items_close {bs : List α} (h : r.run tokens = .ok (a, .closeBracket :: rest)) :
    items r bs tokens = .ok ((a :: bs).reverse, rest) := by
  rw [items]
  split <;> simp_all

theorem items_error {bs : List α} {e : Fault} (h : r.run tokens = .error e) :
    items r bs tokens = .error e := by
  rw [items]
  split <;> simp_all

theorem items_intercalate {bs : List α} (h : List.Forall₂ r.Gives (t :: ts) (a :: as)) :
    items r bs (List.intercalate [.comma] (Tree.itemTokens (t :: ts)) ++ .closeBracket :: rest) =
      .ok (bs.reverse ++ a :: as, rest) := by
  induction ts generalizing t a as bs
  case nil =>
    obtain _ | ⟨first, more⟩ := h
    cases more
    rw [Tree.itemTokens, Tree.itemTokens, List.intercalate_singleton, items_close (first _),
      List.reverse_cons]
  case cons t' ts ih =>
    obtain _ | ⟨first, more⟩ := h
    obtain _ | ⟨second, more⟩ := more
    rw [Tree.itemTokens, Tree.itemTokens, List.intercalate_cons_cons, List.append_assoc, List.append_assoc,
      List.singleton_append, items_comma (first _), ← Tree.itemTokens, ih (.cons second more),
      List.reverse_cons, List.append_assoc, List.singleton_append]

theorem Settled.items (settled : r.Settled) (bs : List α) (t : Tree) (ts : List Tree) :
    (∃ as, List.Forall₂ r.Gives (t :: ts) as) ∨ ∀ rest, ∃ e, items r bs
      (List.intercalate [.comma] (Tree.itemTokens (t :: ts)) ++ .closeBracket :: rest) = .error e := by
  induction ts generalizing t bs
  case nil =>
    obtain ⟨a, gives⟩ | refuses := settled t
    case inl => exact .inl ⟨[a], .cons gives .nil⟩
    case inr =>
      refine .inr fun rest => ?_
      obtain ⟨e, he⟩ := refuses (.closeBracket :: rest)
      rw [Tree.itemTokens, Tree.itemTokens, List.intercalate_singleton]
      exact ⟨e, items_error he⟩
  case cons t' ts ih =>
    rw [Tree.itemTokens, Tree.itemTokens, List.intercalate_cons_cons, ← Tree.itemTokens]
    obtain ⟨a, gives⟩ | refuses := settled t
    case inl =>
      obtain ⟨as, others⟩ | refuses := ih (a :: bs) t'
      case inl => exact .inl ⟨a :: as, .cons gives others⟩
      case inr =>
        refine .inr fun rest => ?_
        rw [List.append_assoc, List.append_assoc, List.singleton_append, items_comma (gives _)]
        exact refuses rest
    case inr =>
      refine .inr fun rest => ?_
      rw [List.append_assoc, List.append_assoc]
      obtain ⟨e, he⟩ := refuses _
      exact ⟨e, items_error he⟩

theorem list_run (h : tokens.head? ≠ some .closeBracket) :
    (list r).run (.openBracket :: tokens) = items r [] tokens := by
  simp only [list]
  split <;> simp_all

theorem list_tokens (t : Tree) (ts : List Tree) : (list r).run ((Tree.array (t :: ts)).tokens ++ rest) =
    items r [] (List.intercalate [.comma] (Tree.itemTokens (t :: ts)) ++ .closeBracket :: rest) := by
  obtain ⟨first, more, eq, ht, -⟩ := t.tokens_eq_cons
  rw [Tree.tokens, encloseTokens, List.append_assoc, List.cons_append, List.singleton_append]
  refine list_run ?_
  cases ts <;> simp [Tree.itemTokens, List.intercalate_cons_cons, eq, ht]

theorem Gives.list (h : List.Forall₂ r.Gives ts as) : (list r).Gives (.array ts) as := by
  intro rest
  cases h
  case nil => rfl
  case cons first more =>
    rw [list_tokens, items_intercalate (.cons first more), List.reverse_nil, List.nil_append]

theorem Settled.list_array (settled : r.Settled) (ts : List Tree) :
    (∃ as, List.Forall₂ r.Gives ts as) ∨ (Reader.list r).Refuses (.array ts) := by
  cases ts
  case nil => exact .inl ⟨[], .nil⟩
  case cons t ts =>
    refine (settled.items [] t ts).imp_right fun refuses rest => ?_
    rw [list_tokens]
    exact refuses rest

theorem Settled.list (settled : r.Settled) : (Reader.list r).Settled := by
  intro t
  cases t
  case array ts => exact (settled.list_array ts).imp_left fun ⟨as, gives⟩ => ⟨as, .list gives⟩
  all_goals exact .inr fun _ => ⟨_, rfl⟩

theorem Settled.of_list (settled : r.Settled) (h : (Reader.list r).Gives (.array ts) as) :
    List.Forall₂ r.Gives ts as := by
  obtain ⟨as', gives⟩ | refuses := settled.list_array ts
  case inl =>
    obtain rfl := h.eq (.list gives)
    exact gives
  case inr => exact absurd refuses h.not_refuses

/- Values that nobody asks for -/

-- Such a value is passed over in whatever brackets it stands.
def Passed (t : Tree) : Prop :=
  ∀ outer rest, skipWithin .value outer (t.tokens ++ rest) = skipWithin .after outer rest

theorem skipWithin_openBracket {outer : List Bracket} (h : tokens.head? ≠ some .closeBracket) :
    skipWithin .value outer (.openBracket :: tokens) = skipWithin .value (.array :: outer) tokens := by
  rw [skipWithin]
  grind

-- The key of a member comes before all the rest.
theorem intercalate_member (key : Option String) (part : List Token) (parts : List (List Token)) :
    List.intercalate [.comma] ((.text key :: .colon :: part) :: parts) =
      .text key :: .colon :: List.intercalate [.comma] (part :: parts) := by
  cases parts <;> simp [List.intercalate_cons_cons]

mutual

theorem passed : ∀ t : Tree, Passed t
  | .null => fun _ _ => by simp [Tree.tokens, skipWithin]
  | .bool _ => fun _ _ => by simp [Tree.tokens, skipWithin]
  | .number _ => fun _ _ => by simp [Tree.tokens, skipWithin]
  | .text _ => fun _ _ => by simp [Tree.tokens, skipWithin]
  | .array [] => fun _ _ => by simp [Tree.tokens, Tree.itemTokens, encloseTokens, skipWithin]
  | .array (t :: ts) => fun outer rest => by
    obtain ⟨first, more, eq, ht, -⟩ := t.tokens_eq_cons
    rw [Tree.tokens, encloseTokens, List.append_assoc, List.cons_append, skipWithin_openBracket]
    · exact passed_items ts (passed t) outer rest
    · cases ts <;> simp [Tree.itemTokens, List.intercalate_cons_cons, eq, ht]
  | .object [] => fun _ _ => by simp [Tree.tokens, Tree.memberTokens, encloseTokens, skipWithin]
  | .object ((key, t) :: ms) => fun outer rest => by
    rw [Tree.tokens, encloseTokens, Tree.memberTokens, intercalate_member, List.append_assoc,
      List.cons_append, List.cons_append, List.cons_append, skipWithin]
    exact passed_members ms (passed t) outer rest

theorem passed_items {t : Tree} :
    ∀ (ts : List Tree) (_ : Passed t) (outer : List Bracket) (rest : List Token),
    skipWithin .value (.array :: outer)
      (List.intercalate [.comma] (t.tokens :: Tree.itemTokens ts) ++ ([.closeBracket] ++ rest)) =
      skipWithin .after outer rest
  | [], first, outer, rest => by
    rw [Tree.itemTokens, List.intercalate_singleton, first, List.singleton_append, skipWithin]
  | t' :: ts, first, outer, rest => by
    rw [Tree.itemTokens, List.intercalate_cons_cons, List.append_assoc, List.append_assoc, first,
      List.singleton_append, skipWithin]
    exact passed_items ts (passed t') outer rest

theorem passed_members {t : Tree} :
    ∀ (ms : List (Option String × Tree)) (_ : Passed t) (outer : List Bracket) (rest : List Token),
    skipWithin .value (.object :: outer)
      (List.intercalate [.comma] (t.tokens :: Tree.memberTokens ms) ++ ([.closeBrace] ++ rest)) =
      skipWithin .after outer rest
  | [], first, outer, rest => by
    rw [Tree.memberTokens, List.intercalate_singleton, first, List.singleton_append, skipWithin]
  | (key, t') :: ms, first, outer, rest => by
    rw [Tree.memberTokens, List.intercalate_cons_cons, List.append_assoc, List.append_assoc, first,
      List.singleton_append, intercalate_member, List.cons_append, List.cons_append, skipWithin]
    exact passed_members ms (passed t') outer rest

end

theorem gives_skip (t : Tree) : skip.Gives t () := by
  intro rest
  simp [skip, passed t [] rest, skipWithin, Except.map]

/- Records -/

section Records

variable {ms : List (Member σ)} {unknown : UnknownKey} {m : Option String × Tree}
  {tms : List (Option String × Tree)} {finish : σ → Option α}

-- What a member of an object does to a draft. One that has no place in the draft is passed over.
inductive Enters (ms : List (Member σ)) (unknown : UnknownKey) : σ → Option String × Tree → σ → Prop
  | known {s : σ} {m : Member σ} {key : String} {t : Tree} {update : σ → σ}
    (named : ms.find? (·.key == key) = some m) (unread : m.isRead s = false)
    (gives : m.reader.Gives t update) : Enters ms unknown s (some key, t) (update s)
  | skipped {s : σ} {key : String} {t : Tree} (unnamed : ms.find? (·.key == key) = none)
    (skips : unknown = .skipped) : Enters ms unknown s (some key, t) s

-- The members of an object fill the one draft up to the other.
inductive Collects (ms : List (Member σ)) (unknown : UnknownKey) : σ → List (Option String × Tree) → σ → Prop
  | nil {s : σ} : Collects ms unknown s [] s
  | cons {s s' s'' : σ} {m : Option String × Tree} {tms : List (Option String × Tree)}
    (first : Enters ms unknown s m s') (rest : Collects ms unknown s' tms s'') :
    Collects ms unknown s (m :: tms) s''

theorem Enters.run (h : Enters ms unknown s m s') (rest : List Token) :
    member ms unknown s (.text m.1 :: .colon :: m.2.tokens ++ rest) = .ok (s', rest) := by
  cases h
  case known named unread gives => simp [member, named, unread, gives rest, Except.map]
  case skipped t unnamed skips =>
    subst skips
    simp [member, unnamed, gives_skip t rest, Except.map]

theorem enters_or_error (unknown : UnknownKey) (settled : ∀ m ∈ ms, m.reader.Settled) (s : σ) (m : Option String × Tree) :
    (∃ s', Enters ms unknown s m s') ∨
      ∀ rest, ∃ e, member ms unknown s (.text m.1 :: .colon :: m.2.tokens ++ rest) = .error e := by
  obtain ⟨key, t⟩ := m
  cases key
  case none => exact .inr fun _ => ⟨_, rfl⟩
  case some key =>
    cases named : ms.find? (·.key == key)
    case none =>
      cases unknown
      case skipped => exact .inl ⟨s, .skipped named rfl⟩
      case refused => exact .inr fun rest => ⟨.malformed, by simp [member, named]⟩
    case some m =>
      cases unread : m.isRead s
      case true => exact .inr fun rest => ⟨.malformed, by simp [member, named, unread]⟩
      case false =>
        obtain ⟨update, gives⟩ | refuses := settled m (List.mem_of_find?_eq_some named) t
        case inl => exact .inl ⟨update s, .known named unread gives⟩
        case inr =>
          refine .inr fun rest => ?_
          obtain ⟨e, he⟩ := refuses rest
          exact ⟨e, by simp [member, named, unread, he, Except.map]⟩

theorem members_comma (h : member ms unknown s tokens = .ok (s', .comma :: rest)) :
    members ms unknown s tokens = members ms unknown s' rest := by
  rw [members]
  split <;> simp_all

theorem members_close (h : member ms unknown s tokens = .ok (s', .closeBrace :: rest)) :
    members ms unknown s tokens = .ok (s', rest) := by
  rw [members]
  split <;> simp_all

theorem members_error {e : Fault} (h : member ms unknown s tokens = .error e) :
    members ms unknown s tokens = .error e := by
  rw [members]
  split <;> simp_all

theorem Collects.members_intercalate (h : Collects ms unknown s (m :: tms) s') :
    members ms unknown s
      (List.intercalate [.comma] (Tree.memberTokens (m :: tms)) ++ .closeBrace :: rest) = .ok (s', rest) := by
  induction tms generalizing m s
  case nil =>
    obtain _ | ⟨first, rest⟩ := h
    cases rest
    rw [Tree.memberTokens, Tree.memberTokens, List.intercalate_singleton]
    exact members_close (first.run _)
  case cons next tms ih =>
    obtain _ | ⟨first, others⟩ := h
    rw [Tree.memberTokens, Tree.memberTokens, List.intercalate_cons_cons, List.append_assoc,
      List.append_assoc, List.singleton_append, members_comma (first.run _)]
    exact ih others

theorem collects_or_error (settled : ∀ m ∈ ms, m.reader.Settled) (s : σ) (m : Option String × Tree)
    (tms : List (Option String × Tree)) : (∃ s', Collects ms unknown s (m :: tms) s') ∨
      ∀ rest, ∃ e, members ms unknown s
        (List.intercalate [.comma] (Tree.memberTokens (m :: tms)) ++ .closeBrace :: rest) = .error e := by
  induction tms generalizing m s
  case nil =>
    obtain ⟨s', first⟩ | error := enters_or_error unknown settled s m
    case inl => exact .inl ⟨s', .cons first .nil⟩
    case inr =>
      refine .inr fun rest => ?_
      obtain ⟨e, he⟩ := error (.closeBrace :: rest)
      rw [Tree.memberTokens, Tree.memberTokens, List.intercalate_singleton]
      exact ⟨e, members_error he⟩
  case cons next tms ih =>
    rw [Tree.memberTokens, Tree.memberTokens, List.intercalate_cons_cons, ← Tree.memberTokens]
    obtain ⟨s', first⟩ | error := enters_or_error unknown settled s m
    case inl =>
      refine (ih s' next).imp (fun ⟨s'', others⟩ => ⟨s'', .cons first others⟩) fun error rest => ?_
      rw [List.append_assoc, List.append_assoc, List.singleton_append, members_comma (first.run _)]
      exact error rest
    case inr =>
      refine .inr fun rest => ?_
      rw [List.append_assoc, List.append_assoc]
      obtain ⟨e, he⟩ := error _
      exact ⟨e, members_error he⟩

theorem draft_run (h : tokens.head? ≠ some .closeBrace) :
    (draft ms unknown s).run (.openBrace :: tokens) = members ms unknown s tokens := by
  simp only [draft]
  split <;> simp_all

theorem draft_tokens (m : Option String × Tree) (tms : List (Option String × Tree)) :
    (draft ms unknown s).run ((Tree.object (m :: tms)).tokens ++ rest) = members ms unknown s
      (List.intercalate [.comma] (Tree.memberTokens (m :: tms)) ++ .closeBrace :: rest) := by
  rw [Tree.tokens, encloseTokens, List.append_assoc, List.cons_append, List.singleton_append]
  refine draft_run ?_
  cases tms <;> simp [Tree.memberTokens, List.intercalate_cons_cons]

theorem Collects.gives_draft (h : Collects ms unknown s tms s') :
    (draft ms unknown s).Gives (.object tms) s' := by
  intro rest
  cases tms
  case nil =>
    cases h
    rfl
  case cons m tms => rw [draft_tokens, h.members_intercalate]

theorem settled_draft_object (settled : ∀ m ∈ ms, m.reader.Settled) (s : σ)
    (tms : List (Option String × Tree)) :
    (∃ s', Collects ms unknown s tms s') ∨ (draft ms unknown s).Refuses (.object tms) := by
  cases tms
  case nil => exact .inl ⟨s, .nil⟩
  case cons m tms =>
    refine (collects_or_error settled s m tms).imp_right fun error rest => ?_
    rw [draft_tokens]
    exact error rest

theorem inOrder_settled (settled : ∀ m ∈ ms, m.reader.Settled) (s : σ) (t : Tree) (ts : List Tree) :
    (∃ s', ∀ rest, inOrder ms s
      (List.intercalate [.comma] (Tree.itemTokens (t :: ts)) ++ .closeBracket :: rest) = .ok (s', rest)) ∨
    ∀ rest, ∃ e, inOrder ms s
      (List.intercalate [.comma] (Tree.itemTokens (t :: ts)) ++ .closeBracket :: rest) = .error e := by
  induction ts generalizing ms s t
  all_goals
    cases ms
    case nil => exact .inr fun _ => ⟨_, rfl⟩
  case nil.cons m ms =>
    rw [Tree.itemTokens, Tree.itemTokens, List.intercalate_singleton]
    refine (settled m List.mem_cons_self t).imp ?_ ?_
    · exact fun ⟨update, gives⟩ => ⟨update s, fun _ => by rw [inOrder, gives]⟩
    · intro refuses rest
      obtain ⟨e, he⟩ := refuses (.closeBracket :: rest)
      exact ⟨e, by rw [inOrder, he]⟩
  case cons.cons t' ts ih m ms =>
    rw [Tree.itemTokens, Tree.itemTokens, List.intercalate_cons_cons, ← Tree.itemTokens]
    simp only [List.append_assoc, List.singleton_append]
    obtain ⟨update, gives⟩ | refuses := settled m List.mem_cons_self t
    case inl =>
      have others := ih (fun m hm => settled m (List.mem_cons_of_mem _ hm)) (update s) t'
      simpa only [inOrder, gives _, List.cons_append] using others
    case inr =>
      refine .inr fun rest => ?_
      obtain ⟨e, he⟩ := refuses (.comma :: List.intercalate [.comma] (Tree.itemTokens (t' :: ts)) ++
        .closeBracket :: rest)
      exact ⟨e, by rw [inOrder, he]⟩

theorem draft_run_array (h : tokens.head? ≠ some .closeBracket) :
    (draft ms unknown s).run (.openBracket :: tokens) = inOrder ms s tokens := by
  simp only [draft]
  split <;> simp_all

theorem draft_tokens_array (t : Tree) (ts : List Tree) :
    (draft ms unknown s).run ((Tree.array (t :: ts)).tokens ++ rest) = inOrder ms s
      (List.intercalate [.comma] (Tree.itemTokens (t :: ts)) ++ .closeBracket :: rest) := by
  obtain ⟨first, more, eq, ht, -⟩ := t.tokens_eq_cons
  rw [Tree.tokens, encloseTokens, List.append_assoc, List.cons_append, List.singleton_append]
  refine draft_run_array ?_
  cases ts <;> simp [Tree.itemTokens, List.intercalate_cons_cons, eq, ht]

theorem settled_draft (settled : ∀ m ∈ ms, m.reader.Settled) (s : σ) : (draft ms unknown s).Settled := by
  intro t
  cases t
  case array ts =>
    cases ts
    case nil => exact .inl ⟨s, fun _ => rfl⟩
    case cons t ts =>
      refine (inOrder_settled settled s t ts).imp ?_ ?_
      · exact fun ⟨s', h⟩ => ⟨s', fun rest => by rw [draft_tokens_array, h]⟩
      · exact fun error rest => by rw [draft_tokens_array]; exact error rest
  case object tms => exact (settled_draft_object settled s tms).imp_left fun ⟨s', h⟩ => ⟨s', h.gives_draft⟩
  all_goals exact .inr fun _ => ⟨_, rfl⟩

theorem settled_record (settled : ∀ m ∈ ms, m.reader.Settled) : (record ms unknown s finish).Settled :=
  (settled_draft settled s).mapExcept

theorem Collects.gives_record (h : Collects ms unknown s tms s') (complete : finish s' = some a) :
    (record ms unknown s finish).Gives (.object tms) a :=
  h.gives_draft.mapExcept (by rw [complete])

theorem collects_of_record (settled : ∀ m ∈ ms, m.reader.Settled)
    (h : (record ms unknown s finish).Gives (.object tms) a) :
    ∃ s', Collects ms unknown s tms s' ∧ finish s' = some a := by
  obtain ⟨s', gives, complete⟩ := (settled_draft settled s).of_mapExcept h
  obtain ⟨s'', h⟩ | refuses := settled_draft_object settled s tms
  case inr => exact absurd refuses gives.not_refuses
  case inl =>
    obtain rfl := gives.eq h.gives_draft
    refine ⟨s', h, ?_⟩
    cases hf : finish s' <;> simp_all

end Records

end Reader

end ClassLift.Json
