import ClassLift.Proofs.Json.Settling

/-!
The fault that a reader finds in a record. It is the one of the first member that does not enter the
draft, whatever comes after this member.
-/

namespace ClassLift.Json.Reader

variable {α β σ : Type} {r : Reader β} {t : Tree} {e : Fault} {ms : List (Member σ)} {unknown : UnknownKey}
  {s s' : σ} {key : String} {m : Option String × Tree} {before after tms : List (Option String × Tree)}
  {get : σ → Option β} {set : β → σ → σ} {finish : σ → Option α} {b : β} {rest : List Token}

-- Whatever comes next, the reader finds this fault in the value.
def Faults (r : Reader β) (t : Tree) (e : Fault) : Prop :=
  ∀ rest, r.run (t.tokens ++ rest) = .error e

-- Whatever comes next, a member of an object does not enter the draft because of this fault.
def Bars (ms : List (Member σ)) (unknown : UnknownKey) (s : σ) (m : Option String × Tree) (e : Fault) : Prop :=
  ∀ rest, member ms unknown s (.text m.1 :: .colon :: m.2.tokens ++ rest) = .error e

theorem Faults.map {f : β → α} (h : r.Faults t e) : (r.map f).Faults t e := by
  intro rest
  simp [Reader.map, mapExcept, h rest]

/- One member -/

section

variable (named : ms.find? (·.key == key) = some (.of key get set r))

include named

theorem enters_of (unread : get s = none) (gives : r.Gives t b) :
    Enters ms unknown s (some key, t) (set b s) :=
  .known named (by simp [Member.of, unread]) (gives.mapExcept rfl)

theorem bars_of_faults (unread : get s = none) (faults : r.Faults t e) : Bars ms unknown s (some key, t) e := by
  intro rest
  have faults := faults.map (f := set) rest
  simp [member, named, Member.of, unread, faults, Except.map]

-- A member that was read before is refused without a look at its value.
theorem bars_of_read (read : get s ≠ none) : Bars ms unknown s (some key, t) .malformed := by
  intro rest
  have read : (get s).isSome = true := Option.isSome_iff_ne_none.mpr read
  simp [member, named, Member.of, read]

end

theorem bars_of_unnamed (unnamed : ms.find? (·.key == key) = none) :
    Bars ms .refused s (some key, t) .malformed := by
  intro rest
  simp [member, unnamed]

/- All members -/

theorem Collects.concat (h : Collects ms unknown s before s') {s'' : σ} (last : Enters ms unknown s' m s'') :
    Collects ms unknown s (before ++ [m]) s'' := by
  induction h
  case nil             => exact .cons last .nil
  case cons first _ ih => exact .cons first (ih last)

theorem intercalate_memberTokens (m : Option String × Tree) (h : tms ≠ []) :
    List.intercalate [.comma] (Tree.memberTokens (m :: tms)) =
      .text m.1 :: .colon :: m.2.tokens ++ .comma :: List.intercalate [.comma] (Tree.memberTokens tms) := by
  cases tms
  case nil => exact absurd rfl h
  case cons => simp [Tree.memberTokens, List.intercalate_cons_cons]

theorem Collects.members_error (h : Collects ms unknown s before s') (bars : Bars ms unknown s' m e) :
    members ms unknown s
      (List.intercalate [.comma] (Tree.memberTokens (before ++ m :: after)) ++ .closeBrace :: rest) =
      .error e := by
  induction h
  case nil =>
    refine Reader.members_error ?_
    by_cases last : after = []
    case pos =>
      subst last
      simpa [Tree.memberTokens] using bars (.closeBrace :: rest)
    case neg =>
      rw [List.nil_append, intercalate_memberTokens m last, List.append_assoc]
      exact bars _
  case cons first _ ih =>
    rw [List.cons_append, intercalate_memberTokens _ (by simp), List.append_assoc]
    exact (members_comma (first.run _)).trans (ih bars)

theorem Collects.faults_record (h : Collects ms unknown s before s') (bars : Bars ms unknown s' m e) :
    (record ms unknown s finish).Faults (.object (before ++ m :: after)) e := by
  intro rest
  obtain ⟨first, more, eq⟩ : ∃ first more, before ++ m :: after = first :: more :=
    List.exists_cons_of_ne_nil (by simp)
  have draft : (draft ms unknown s).run ((Tree.object (before ++ m :: after)).tokens ++ rest) = .error e := by
    rw [eq, draft_tokens, ← eq]
    exact h.members_error bars
  simp [record, mapExcept, draft]

end ClassLift.Json.Reader
