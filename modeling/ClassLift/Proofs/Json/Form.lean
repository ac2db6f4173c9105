import ClassLift.Proofs.Json.Reading
import Mathlib.Data.List.Duplicate
import Mathlib.Data.List.Pairwise

/-!
The forms of the values of a document. A value may be presented in many ways that its form allows, and
they all read the same. A presentation with a defect is never read.
-/

namespace ClassLift.Json

variable {α β σ : Type}

structure Form where
  Presents  : Value → Tree → Prop
  Defective : Tree → Prop

-- A member that may be left out stands for a default.
structure Field where
  key : String
  default? : Option Value
  form : Form

def Field.required (key : String) (form : Form) : Field :=
  { key, default? := none, form }

def Field.optional (key : String) (default : Value) (form : Form) : Field :=
  { key, default? := some default, form }

-- What may be done to the members of an object without a change of its meaning.
inductive Shows (fields : List Field) : List (String × Value) → List (Option String × Tree) → Prop
  | nil : Shows fields [] []
  | kept {f : Field} {v : Value} {t : Tree} {ms : List (String × Value)} {tms : List (Option String × Tree)}
    (known : f ∈ fields) (presents : f.form.Presents v t) (rest : Shows fields ms tms) :
    Shows fields ((f.key, v) :: ms) ((some f.key, t) :: tms)
  | omitted {f : Field} {v : Value} {ms : List (String × Value)} {tms : List (Option String × Tree)}
    (known : f ∈ fields) (default : f.default? = some v) (rest : Shows fields ms tms) :
    Shows fields ((f.key, v) :: ms) tms
  | inserted {key : String} {t : Tree} {ms : List (String × Value)} {tms : List (Option String × Tree)}
    (unknown : ∀ f ∈ fields, f.key ≠ key) (rest : Shows fields ms tms) :
    Shows fields ms ((some key, t) :: tms)
  | permuted {ms : List (String × Value)} {tms tms' : List (Option String × Tree)}
    (perm : tms.Perm tms') (rest : Shows fields ms tms) : Shows fields ms tms'

inductive Defect (fields : List Field) (tms : List (Option String × Tree)) : Prop
  | repeated {f : Field} (known : f ∈ fields) (twice : (tms.map Prod.fst).Duplicate (some f.key))
  | missing {f : Field} (known : f ∈ fields) (required : f.default? = none)
    (absent : some f.key ∉ tms.map Prod.fst)
  | within {f : Field} {t : Tree} (known : f ∈ fields) (mem : (some f.key, t) ∈ tms)
    (defective : f.form.Defective t)

namespace Form

-- A value that has only one presentation.
def leaf : Form where
  Presents v t := t = v.asTree
  Defective _  := False

def list (item : Form) : Form where
  Presents v t := ∃ vs ts, v = .array vs ∧ t = .array ts ∧ List.Forall₂ item.Presents vs ts
  Defective t  := ∃ ts, t = .array ts ∧ ∃ t ∈ ts, item.Defective t

def record (fields : List Field) : Form where
  Presents v t := ∃ ms tms, v = .object ms ∧ t = .object tms ∧ Shows fields ms tms
  Defective t  := ∃ tms, t = .object tms ∧ Defect fields tms

end Form

namespace Reader

-- The reader goes by the form of a value.
structure Conforms (r : Reader α) (f : Form) : Prop where
  settled   : r.Settled
  presents  : ∀ {v t a}, f.Presents v t → r.Reads v a → r.Gives t a
  defective : ∀ {t}, f.Defective t → r.Refuses t

variable {r : Reader α} {form : Form}

theorem Settled.conforms (settled : r.Settled) : r.Conforms .leaf where
  settled     := settled
  presents    := fun shown reads => shown ▸ reads_iff_gives.mp reads
  defective h := h.elim

theorem Conforms.mapExcept {f : α → Except Fault β} (h : r.Conforms form) :
    (r.mapExcept f).Conforms form where
  settled := h.settled.mapExcept
  presents := fun shown reads => by
    obtain ⟨a, gives, ha⟩ := h.settled.of_mapExcept (reads_iff_gives.mp reads)
    exact (h.presents shown (reads_iff_gives.mpr gives)).mapExcept ha
  defective ht := (h.defective ht).mapExcept

theorem Conforms.map {f : α → β} (h : r.Conforms form) : (r.map f).Conforms form :=
  h.mapExcept

theorem presents_items {vs : List Value} {ts : List Tree} {as : List α} (h : r.Conforms form)
    (shown : List.Forall₂ form.Presents vs ts) (reads : List.Forall₂ r.Reads vs as) :
    List.Forall₂ r.Gives ts as := by
  induction shown generalizing as
  case nil =>
    cases reads
    exact .nil
  case cons first _ ih =>
    obtain _ | ⟨reads, more⟩ := reads
    exact .cons (h.presents first reads) (ih more)

theorem exists_of_forall₂ {R : α → β → Prop} {l : List α} {l' : List β} {a : α} (h : List.Forall₂ R l l')
    (ha : a ∈ l) : ∃ b ∈ l', R a b := by
  induction h
  case nil => cases ha
  case cons b _ l' first _ ih =>
    obtain rfl | ha := List.mem_cons.mp ha
    case inl => exact ⟨b, List.mem_cons_self, first⟩
    case inr =>
      obtain ⟨b, hb, h⟩ := ih ha
      exact ⟨b, List.mem_cons_of_mem _ hb, h⟩

theorem Conforms.list (h : r.Conforms form) : (Reader.list r).Conforms (.list form) where
  settled := h.settled.list
  presents := by
    rintro _ _ as ⟨vs, ts, rfl, rfl, shown⟩ reads
    have reads := h.settled.of_list (reads_iff_gives.mp reads)
    rw [Value.itemTrees_eq, List.forall₂_map_left_iff] at reads
    exact .list <| presents_items h shown <| reads.imp fun _ _ => reads_iff_gives.mpr
  defective := by
    rintro _ ⟨ts, rfl, t, ht, defective⟩
    obtain ⟨as, gives⟩ | refuses := h.settled.list_array ts
    case inr => exact refuses
    case inl =>
      obtain ⟨a, -, gives⟩ := exists_of_forall₂ gives ht
      exact absurd (h.defective defective) gives.not_refuses

/- Records -/

section Records

variable {ms : List (Member σ)} {m m' : Member σ} {f : Field} {fields : List Field} {finish : σ → Option α}
  {start s s' s'' : σ} {x y : Option String × Tree} {tms tms' : List (Option String × Tree)}

theorem Collects.of_append (h : Collects ms .skipped s (tms ++ tms') s') :
    ∃ s'', Collects ms .skipped s tms s'' ∧ Collects ms .skipped s'' tms' s' := by
  induction tms generalizing s
  case nil => exact ⟨s, .nil, h⟩
  case cons x tms ih =>
    obtain _ | ⟨first, rest⟩ := h
    obtain ⟨s'', front, back⟩ := ih rest
    exact ⟨s'', .cons first front, back⟩

theorem Collects.exists_enters (h : Collects ms .skipped s tms s') (hx : x ∈ tms) :
    ∃ s s', Enters ms .skipped s x s' := by
  induction h
  case nil => cases hx
  case cons first _ ih =>
    obtain rfl | hx := List.mem_cons.mp hx
    case inl => exact ⟨_, _, first⟩
    case inr => exact ih hx

-- Two members of a draft that have nothing to do with each other.
structure Apart (m m' : Member σ) : Prop where
  key     : m.key ≠ m'.key
  left    : ∀ {t u}, m'.reader.Gives t u → ∀ s, m.isRead (u s) = m.isRead s
  right   : ∀ {t u}, m.reader.Gives t u → ∀ s, m'.isRead (u s) = m'.isRead s
  commute : ∀ {t t' u u'}, m.reader.Gives t u → m'.reader.Gives t' u' → ∀ s, u (u' s) = u' (u s)

instance : Std.Symm (Apart (σ := σ)) where
  symm _ _ h := {
    key     := h.key.symm
    left    := h.right
    right   := h.left
    commute := fun hu hu' s => (h.commute hu' hu s).symm }

-- A draft in which each member has a place of its own.
structure Separate (ms : List (Member σ)) : Prop where
  apart : ms.Pairwise Apart
  reads : ∀ m ∈ ms, ∀ {t u}, m.reader.Gives t u → ∀ s, m.isRead (u s) = true

namespace Separate

theorem find? (sep : Separate ms) (h : m ∈ ms) : ms.find? (·.key == m.key) = some m := by
  cases hf : ms.find? (·.key == m.key)
  case none => simpa using List.find?_eq_none.mp hf m h
  case some m' =>
    have same : m'.key = m.key := by simpa using List.find?_some hf
    by_contra other
    have other : m' ≠ m := fun e => other (congrArg some e)
    exact (sep.apart.forall (List.mem_of_find?_eq_some hf) h other).key same

theorem isRead_iff (sep : Separate ms) (hm : m ∈ ms) (h : Enters ms .skipped s x s') :
    m.isRead s' = true ↔ m.isRead s = true ∨ x.1 = some m.key := by
  cases h
  case known m' key t u named unread gives =>
    have hm' := List.mem_of_find?_eq_some named
    obtain rfl : m'.key = key := by simpa using List.find?_some named
    by_cases e : m = m'
    case pos =>
      subst e
      simp [sep.reads m hm gives]
    case neg =>
      have apart := sep.apart.forall hm hm' e
      simp [apart.left gives, apart.key.symm]
  case skipped key t unnamed _ =>
    have other : m.key ≠ key := by simpa using List.find?_eq_none.mp unnamed m hm
    simp [other.symm]

theorem enters_swap (sep : Separate ms) (first : Enters ms .skipped s x s')
    (second : Enters ms .skipped s' y s'') :
    ∃ s', Enters ms .skipped s y s' ∧ Enters ms .skipped s' x s'' := by
  cases first
  case skipped unnamed _ => exact ⟨s'', second, .skipped unnamed rfl⟩
  case known m key t u named unread gives =>
    cases second
    case skipped unnamed _ => exact ⟨s, .skipped unnamed rfl, .known named unread gives⟩
    case known m' key' t' u' named' unread' gives' =>
      have hm := List.mem_of_find?_eq_some named
      have other : m ≠ m' := by
        rintro rfl
        rw [sep.reads m hm gives] at unread'
        cases unread'
      have apart := sep.apart.forall hm (List.mem_of_find?_eq_some named') other
      have unread' : m'.isRead s = false := by rwa [apart.right gives] at unread'
      rw [← apart.commute gives gives']
      exact ⟨u' s, .known named' unread' gives', .known named (by rwa [apart.left gives']) gives⟩

theorem collects_perm (sep : Separate ms) (perm : tms.Perm tms') (h : Collects ms .skipped s tms s') :
    Collects ms .skipped s tms' s' := by
  induction perm generalizing s
  case nil => exact h
  case cons ih =>
    obtain _ | ⟨first, rest⟩ := h
    exact .cons first (ih rest)
  case swap =>
    obtain _ | ⟨first, _ | ⟨second, rest⟩⟩ := h
    obtain ⟨_, first, second⟩ := sep.enters_swap first second
    exact .cons first (.cons second rest)
  case trans ih ih' => exact ih' (ih h)

theorem isRead_of_collects (sep : Separate ms) (hm : m ∈ ms) (h : Collects ms .skipped s tms s') :
    m.isRead s' = true ↔ m.isRead s = true ∨ some m.key ∈ tms.map Prod.fst := by
  induction h
  case nil => simp
  case cons first _ ih =>
    rw [ih, sep.isRead_iff hm first, List.map_cons, List.mem_cons, or_assoc, eq_comm (b := some m.key)]

-- What is read is not read again.
theorem ne_of_isRead (sep : Separate ms) (hm : m ∈ ms) (read : m.isRead s = true)
    (h : Enters ms .skipped s x s') : some m.key ≠ x.1 := by
  have found := sep.find? hm
  cases h
  case known m' key t u named unread gives =>
    rintro ⟨⟩
    obtain rfl := Option.some.inj (named.symm.trans found)
    simp_all
  case skipped key t unnamed _ =>
    rintro ⟨⟩
    cases unnamed.symm.trans found

theorem not_mem_of_isRead (sep : Separate ms) (hm : m ∈ ms) (read : m.isRead s = true)
    (h : Collects ms .skipped s tms s') : some m.key ∉ tms.map Prod.fst := by
  induction h
  case nil => simp
  case cons first _ ih =>
    rw [List.map_cons, List.mem_cons, not_or]
    exact ⟨sep.ne_of_isRead hm read first, ih ((sep.isRead_iff hm first).mpr (.inl read))⟩

theorem not_duplicate (sep : Separate ms) (hm : m ∈ ms) (h : Collects ms .skipped s tms s') :
    ¬(tms.map Prod.fst).Duplicate (some m.key) := by
  induction h
  case nil => exact fun twice => twice.elim_nil
  case cons x tms first rest ih =>
    intro twice
    rw [List.map_cons] at twice
    by_cases e : x.1 = some m.key
    case pos =>
      rw [e] at twice
      exact sep.not_mem_of_isRead hm ((sep.isRead_iff hm first).mpr (.inr e)) rest twice.mem_cons_self
    case neg => exact ih (twice.of_duplicate_cons (Ne.symm e))

end Separate

-- The member of a draft in which the values of a field are collected.
structure Holds (finish : σ → Option α) (m : Member σ) (f : Field) : Prop where
  key      : m.key = f.key
  conforms : m.reader.Conforms f.form
  reads    : ∀ {t u}, m.reader.Gives t u → ∀ s, m.isRead (u s) = true
  default  : ∀ {v u}, f.default? = some v → m.reader.Reads v u →
    ∀ s, m.isRead s = false → finish (u s) = finish s
  required : f.default? = none → ∀ s, m.isRead s = false → finish s = none

-- A draft that has a place for each field, and nothing in it at the start.
structure Describes (fields : List Field) (ms : List (Member σ)) (start : σ) (finish : σ → Option α) :
    Prop where
  apart   : ms.Pairwise Apart
  members : List.Forall₂ (Holds finish) ms fields
  fresh   : ∀ m ∈ ms, m.isRead start = false

namespace Describes

variable {t : Tree} {vms : List (String × Value)}

theorem exists_field (d : Describes fields ms start finish) (h : m ∈ ms) : ∃ f ∈ fields, Holds finish m f :=
  exists_of_forall₂ d.members h

theorem exists_member (d : Describes fields ms start finish) (h : f ∈ fields) : ∃ m ∈ ms, Holds finish m f :=
  exists_of_forall₂ d.members.flip h

theorem separate (d : Describes fields ms start finish) : Separate ms where
  apart := d.apart
  reads _ hm _ _ gives := have ⟨_, _, holds⟩ := d.exists_field hm; holds.reads gives

theorem settled (d : Describes fields ms start finish) (m : Member σ) (hm : m ∈ ms) : m.reader.Settled :=
  have ⟨_, _, holds⟩ := d.exists_field hm
  holds.conforms.settled

-- A member with the key of a field enters the place of the field.
theorem exists_update (d : Describes fields ms start finish) (known : f ∈ fields)
    (h : Enters ms .skipped s (some f.key, t) s') : ∃ m u, Holds finish m f ∧ m.reader.Gives t u ∧
      m.isRead s = false ∧ s' = u s ∧ ∀ t, m.reader.Gives t u → Enters ms .skipped s (some f.key, t) s' := by
  obtain ⟨m, hm, holds⟩ := d.exists_member known
  have found := holds.key ▸ d.separate.find? hm
  cases h
  case known m' u unread named gives =>
    obtain rfl := Option.some.inj (named.symm.trans found)
    exact ⟨m', u, holds, gives, unread, rfl, fun _ gives => .known named unread gives⟩
  case skipped _ unnamed => cases unnamed.symm.trans found

theorem skips (d : Describes fields ms start finish) {key : String} (unknown : ∀ f ∈ fields, f.key ≠ key) :
    Enters ms .skipped s (some key, t) s := by
  refine .skipped (List.find?_eq_none.mpr fun m hm => ?_) rfl
  obtain ⟨f, hf, holds⟩ := d.exists_field hm
  simpa [holds.key] using unknown f hf

-- However the members are presented, they come to the same.
theorem collects_of_shows (d : Describes fields ms start finish) (h : Shows fields vms tms)
    (collects : Collects ms .skipped s (Value.memberTrees vms) s') :
    ∃ s'', Collects ms .skipped s tms s'' ∧ finish s'' = finish s' := by
  induction h generalizing s s'
  case nil => exact ⟨s', collects, rfl⟩
  case kept f v t vms tms known presents _ ih =>
    rw [Value.memberTrees] at collects
    obtain _ | ⟨first, rest⟩ := collects
    obtain ⟨m, u, holds, gives, -, -, again⟩ := d.exists_update known first
    obtain ⟨s'', rest, same⟩ := ih rest
    have gives := holds.conforms.presents presents (reads_iff_gives.mpr gives)
    exact ⟨s'', .cons (again t gives) rest, same⟩
  case omitted f v vms tms known default _ ih =>
    -- The default is read last, so that it may as well not be read.
    rw [Value.memberTrees] at collects
    have last := d.separate.collects_perm (List.perm_append_singleton ..).symm collects
    obtain ⟨s₁, rest, last⟩ := last.of_append
    obtain _ | ⟨last, _ | _⟩ := last
    obtain ⟨m, u, holds, gives, unread, rfl, -⟩ := d.exists_update known last
    obtain ⟨s'', rest, same⟩ := ih rest
    have default := holds.default default (reads_iff_gives.mpr gives) s₁ unread
    exact ⟨s'', rest, same.trans default.symm⟩
  case inserted unknown _ ih =>
    obtain ⟨s'', rest, same⟩ := ih collects
    exact ⟨s'', .cons (d.skips unknown) rest, same⟩
  case permuted perm _ ih =>
    obtain ⟨s'', rest, same⟩ := ih collects
    exact ⟨s'', d.separate.collects_perm perm rest, same⟩

theorem not_defect (d : Describes fields ms start finish) (h : Collects ms .skipped start tms s')
    (complete : finish s' ≠ none) : ¬Defect fields tms := by
  rintro (⟨known, twice⟩ | ⟨known, required, absent⟩ | ⟨known, mem, defective⟩)
  case repeated f =>
    obtain ⟨m, hm, holds⟩ := d.exists_member known
    exact d.separate.not_duplicate hm h (holds.key ▸ twice)
  case missing f =>
    obtain ⟨m, hm, holds⟩ := d.exists_member known
    cases read : m.isRead s'
    case false => exact complete (holds.required required s' read)
    case true =>
      rw [d.separate.isRead_of_collects hm h, d.fresh m hm, holds.key] at read
      exact absent (read.resolve_left Bool.false_ne_true)
  case within f t =>
    obtain ⟨s₁, s₂, enters⟩ := h.exists_enters mem
    obtain ⟨m, u, holds, gives, -⟩ := d.exists_update known enters
    exact gives.not_refuses (holds.conforms.defective defective)

theorem conforms (d : Describes fields ms start finish) :
    (record ms .skipped start finish).Conforms (.record fields) where
  settled := settled_record d.settled
  presents := by
    rintro _ _ a ⟨vms, tms, rfl, rfl, shows⟩ reads
    obtain ⟨s, collects, complete⟩ := collects_of_record d.settled (reads_iff_gives.mp reads)
    obtain ⟨s', collects, same⟩ := d.collects_of_shows shows collects
    exact collects.gives_record (same.trans complete)
  defective := by
    rintro _ ⟨tms, rfl, defect⟩
    have settled : (record ms .skipped start finish).Settled := settled_record d.settled
    obtain ⟨a, gives⟩ | refuses := settled (.object tms)
    case inr => exact refuses
    case inl =>
      obtain ⟨s, collects, complete⟩ := collects_of_record d.settled gives
      exact absurd defect (d.not_defect collects (by simp [complete]))

end Describes

/- Members of a structure -/

variable {γ : Type} {key key' : String} {get : σ → Option β} {set : β → σ → σ} {reader : Reader β}
  {get' : σ → Option γ} {set' : γ → σ → σ} {reader' : Reader γ} {b : β} {v : Value}

theorem exists_set {t : Tree} {u : σ → σ} (h : (Member.of key get set reader).reader.Gives t u) :
    ∃ b, u = set b := by
  have now := h []
  cases hr : reader.run (t.tokens ++ [])
  all_goals simp only [Member.of, Reader.map, Reader.mapExcept, hr, Except.map] at now
  case error => cases now
  case ok result => exact ⟨result.1, (congrArg Prod.fst (Except.ok.inj now)).symm⟩

theorem Apart.of (keys : key ≠ key') (left : ∀ c s, get (set' c s) = get s)
    (right : ∀ b s, get' (set b s) = get' s) (commute : ∀ b c s, set b (set' c s) = set' c (set b s)) :
    Apart (Member.of key get set reader) (Member.of key' get' set' reader') where
  key := keys
  left gives s := by
    obtain ⟨c, rfl⟩ := exists_set gives
    exact congrArg Option.isSome (left c s)
  right gives s := by
    obtain ⟨b, rfl⟩ := exists_set gives
    exact congrArg Option.isSome (right b s)
  commute gives gives' s := by
    obtain ⟨b, rfl⟩ := exists_set gives
    obtain ⟨c, rfl⟩ := exists_set gives'
    exact commute b c s

theorem Holds.of_required (conforms : reader.Conforms form) (reads : ∀ b s, (get (set b s)).isSome)
    (required : ∀ s, get s = none → finish s = none) :
    Holds finish (Member.of key get set reader) (.required key form) where
  key := rfl
  conforms := conforms.map
  reads gives s := by
    obtain ⟨b, rfl⟩ := exists_set gives
    exact reads b s
  default  := nofun
  required := fun _ s unread => required s (by simpa [Member.of] using unread)

theorem Holds.of_optional (conforms : reader.Conforms form) (reads : ∀ b s, (get (set b s)).isSome)
    (default : reader.Reads v b) (same : ∀ s, get s = none → finish (set b s) = finish s) :
    Holds finish (Member.of key get set reader) (.optional key v form) where
  key := rfl
  conforms := conforms.map
  reads gives s := by
    obtain ⟨b, rfl⟩ := exists_set gives
    exact reads b s
  default := by
    rintro _ u ⟨⟩ reads s unread
    obtain rfl := (reads_iff_gives.mp reads).eq (reads_iff_gives.mp (default.map set))
    exact same s (by simpa [Member.of] using unread)
  required := nofun

end Records

end Reader

end ClassLift.Json
