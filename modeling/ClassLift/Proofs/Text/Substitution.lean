import ClassLift.Text.Template
import Mathlib.Data.List.Induction
import Mathlib.Tactic.Linarith

/-!
When the filling of a template is a substitution, in which all placeholders get their arguments at
once. The arguments are put in one after the other, so it is one exactly as long as the arguments that
are put in make no placeholder of a later one, alone or with what is beside them.
-/

namespace ClassLift.Text

/- Occurrences of a word -/

def occurrences (word s : List Char) : Nat :=
  s.tails.countP (word.isPrefixOf ·)

section Occurrences

variable {c d : Char} {rest r s front word : List Char}

theorem occurrences_nil (h : word ≠ []) : occurrences word [] = 0 := by
  cases word
  case nil => exact absurd rfl h
  case cons => rfl

theorem occurrences_cons :
    occurrences word (d :: s) = occurrences word s + if word <+: d :: s then 1 else 0 := by
  simp [occurrences, List.countP_cons]

theorem occurrences_append (h : c ∉ front) :
    occurrences (c :: rest) (front ++ s) = occurrences (c :: rest) s := by
  induction front
  case nil => rfl
  case cons d front ih =>
    obtain ⟨hd, hf⟩ : c ≠ d ∧ c ∉ front := by simpa using h
    rw [List.cons_append, occurrences_cons, ih hf]
    simp [hd]

-- A word that does not have its first character a second time does not overlap itself.
theorem occurrences_self_append (apart : c ∉ rest) :
    occurrences (c :: rest) (c :: rest ++ s) = occurrences (c :: rest) s + 1 := by
  rw [List.cons_append, occurrences_cons, occurrences_append apart]
  simp

theorem replaceAll_self_append :
    replaceAll (c :: rest) r (c :: rest ++ s) = r ++ replaceAll (c :: rest) r s := by
  have here : (c :: rest).isPrefixOf (c :: (rest ++ s)) := by simp [List.isPrefixOf]
  rw [replaceAll, List.cons_append, replaceFrom, if_pos here, List.length_cons, Nat.add_sub_cancel,
    replaceFrom_length, replaceAll]

theorem replaceAll_cons (h : ¬word <+: d :: s) : replaceAll word r (d :: s) = d :: replaceAll word r s := by
  rw [replaceAll, replaceFrom, if_neg (by simpa using h), replaceAll]

theorem length_replaceAll (apart : c ∉ rest) (r s : List Char) :
    (replaceAll (c :: rest) r s).length + occurrences (c :: rest) s * (c :: rest).length =
      s.length + occurrences (c :: rest) s * r.length := by
  match s with
  | [] => simp [replaceAll, replaceFrom, occurrences_nil]
  | d :: s =>
    by_cases h : c :: rest <+: d :: s
    case pos =>
      obtain ⟨t, ht⟩ := h
      have shorter : t.length ≤ s.length := by
        have lengths := congrArg List.length ht
        rw [List.length_append, List.length_cons, List.length_cons] at lengths
        omega
      have ih := length_replaceAll apart r t
      rw [← ht, replaceAll_self_append, occurrences_self_append apart, List.length_append, List.length_append]
      linarith
    case neg =>
      have ih := length_replaceAll apart r s
      rw [replaceAll_cons h, occurrences_cons, if_neg h, Nat.add_zero]
      simp only [List.length_cons] at ih ⊢
      linarith
termination_by s.length

theorem replaceAll_same (s : List Char) : replaceAll (c :: rest) (c :: rest) s = s := by
  match s with
  | [] => rfl
  | d :: s =>
    by_cases h : c :: rest <+: d :: s
    case pos =>
      obtain ⟨t, ht⟩ := h
      have shorter : t.length ≤ s.length := by
        have lengths := congrArg List.length ht
        rw [List.length_append, List.length_cons, List.length_cons] at lengths
        omega
      rw [← ht, replaceAll_self_append, replaceAll_same t]
    case neg => rw [replaceAll_cons h, replaceAll_same s]
termination_by s.length

end Occurrences

/- Texts with places for a word -/

-- A text in which some places, those without a character, are for a word.
def write (word : List Char) (places : List (Option Char)) : List Char :=
  places.flatMap (·.elim word ([·]))

section Places

variable {c d : Char} {rest r s front : List Char} {places : List (Option Char)}

@[simp]
theorem write_nil (word : List Char) : write word [] = [] := rfl

@[simp]
theorem write_none (word : List Char) (places : List (Option Char)) :
    write word (none :: places) = word ++ write word places := rfl

@[simp]
theorem write_some (word : List Char) (d : Char) (places : List (Option Char)) :
    write word (some d :: places) = d :: write word places := rfl

theorem write_map_some (r s : List Char) (places : List (Option Char)) :
    write r (s.map some ++ places) = s ++ write r places := by
  simp [write, List.flatMap_map]

theorem length_write (word r : List Char) (places : List (Option Char)) :
    (write r places).length + places.count none * word.length =
      (write word places).length + places.count none * r.length := by
  induction places
  case nil => simp
  case cons p places ih => cases p <;> simp <;> linarith

theorem count_le_occurrences (apart : c ∉ rest) (places : List (Option Char)) :
    places.count none ≤ occurrences (c :: rest) (write (c :: rest) places) := by
  induction places
  case nil => exact Nat.zero_le _
  case cons p places ih =>
    cases p
    case none =>
      rw [List.count_cons_self]
      exact Nat.le_trans (Nat.succ_le_succ ih) (Nat.le_of_eq (occurrences_self_append apart).symm)
    case some d =>
      rw [List.count_cons_of_ne (by simp)]
      exact Nat.le_trans ih (occurrences_cons ▸ Nat.le_add_right _ _)

-- What comes before the word begins is no place for it.
theorem exists_of_write_eq (h : c ∉ front) (eq : write (c :: rest) places = front ++ s) :
    ∃ more, places = front.map some ++ more ∧ write (c :: rest) more = s := by
  induction front generalizing places
  case nil => exact ⟨places, rfl, eq⟩
  case cons d front ih =>
    obtain ⟨hd, hf⟩ : c ≠ d ∧ c ∉ front := by simpa using h
    obtain _ | ⟨_ | e, places⟩ := places
    · cases eq
    · exact absurd (List.cons.inj eq).left hd
    · obtain ⟨rfl, after⟩ := List.cons.inj eq
      obtain ⟨more, rfl, hs⟩ := ih hf after
      exact ⟨more, rfl, hs⟩

-- All occurrences of the word are replaced, so exactly the places are if the word occurs nowhere else.
theorem replaceAll_write_iff (apart : c ∉ rest) (r : List Char) (places : List (Option Char)) :
    replaceAll (c :: rest) r (write (c :: rest) places) = write r places ↔
      r = c :: rest ∨ occurrences (c :: rest) (write (c :: rest) places) = places.count none := by
  induction places
  case nil => simp [replaceAll, replaceFrom, occurrences_nil]
  case cons p places ih =>
    cases p
    case none =>
      rw [write_none, write_none, replaceAll_self_append, occurrences_self_append apart,
        List.count_cons_self, List.append_cancel_left_eq, Nat.add_right_cancel_iff]
      exact ih
    case some d =>
      rw [write_some, write_some, List.count_cons_of_ne (by simp), occurrences_cons]
      by_cases h : c :: rest <+: d :: write (c :: rest) places
      case neg =>
        rw [replaceAll_cons h, if_neg h, List.cons_inj_right]
        exact ih
      case pos =>
        -- The word occurs here without a place for it, and is replaced all the same.
        have least := count_le_occurrences apart places
        rw [if_pos h, or_iff_left (by omega)]
        obtain ⟨s, hs⟩ := h
        obtain ⟨rfl, after⟩ := List.cons.inj hs
        obtain ⟨more, rfl, rfl⟩ := exists_of_write_eq apart after.symm
        constructor
        case mpr =>
          rintro rfl
          exact replaceAll_same _
        case mp =>
          intro eq
          rw [← hs, replaceAll_self_append, write_map_some] at eq
          have same : r ++ replaceAll (c :: rest) r (write (c :: rest) more) =
            c :: rest ++ write r more := eq
          refine List.append_inj_left same ?_
          have here := length_replaceAll apart r (write (c :: rest) more)
          have there := length_write (c :: rest) r more
          have lengths := congrArg List.length same
          rw [List.length_append, List.length_append] at lengths
          obtain ⟨k, hk⟩ := Nat.le.dest (count_le_occurrences apart more)
          rw [← hk] at here
          have scaled : (k + 1) * r.length = (k + 1) * (c :: rest).length := by linarith
          exact Nat.eq_of_mul_eq_mul_left (Nat.succ_pos k) scaled

end Places

/- Templates -/

-- A placeholder for the argument of a number, or any other character.
inductive Piece
  | hole (i : Nat)
  | char (c : Char)
  deriving DecidableEq, Repr

namespace Piece

-- A placeholder without an argument stays as it is.
def filled (args : List String) : Piece → List Char
  | hole i => (args[i]?).elim (placeholder i) (·.toList)
  | char c => [c]

end Piece

-- The pieces of a text from left to right. All placeholders are pieces.
inductive MadeOf : List Char → List Piece → Prop
  | nil : MadeOf [] []
  | hole {s : List Char} {pieces : List Piece} (i : Nat) (rest : MadeOf s pieces) :
    MadeOf (placeholder i ++ s) (.hole i :: pieces)
  | char {c : Char} {s : List Char} {pieces : List Piece} (other : ∀ i, ¬placeholder i <+: c :: s)
    (rest : MadeOf s pieces) : MadeOf (c :: s) (.char c :: pieces)

-- All placeholders of the template stand for their arguments, whatever the arguments are.
def Substituted (template : String) (args : List String) (result : String) : Prop :=
  ∃ pieces, MadeOf template.toList pieces ∧ result.toList = pieces.flatMap (·.filled args)

section Template

variable {i j : Nat} {s : List Char} {pieces pieces' : List Piece} {template : String} {args : List String}

theorem not_mem_digits (h : c.isDigit = false) : c ∉ Nat.toDigits 10 i := fun hc => by
  have digit := Nat.isDigit_of_mem_toDigits (by decide) (by decide) hc
  rw [h] at digit
  cases digit

-- A placeholder begins with its only opening brace.
theorem not_mem_placeholder : '{' ∉ Nat.toDigits 10 i ++ ['}'] := by
  simp [not_mem_digits (c := '{') rfl]

theorem placeholder_prefix_iff : placeholder i <+: placeholder j ++ s ↔ i = j := by
  constructor
  case mpr =>
    rintro rfl
    exact List.prefix_append _ _
  case mp =>
    rintro ⟨t, eq⟩
    have digits : Nat.toDigits 10 i ++ '}' :: t = Nat.toDigits 10 j ++ '}' :: s := by
      simpa [placeholder] using eq
    have closed {k : Nat} {t : List Char} :
        (Nat.toDigits 10 k ++ '}' :: t).takeWhile (· != '}') = Nat.toDigits 10 k := by
      rw [List.takeWhile_append_of_pos]
      · simp
      · intro c hc
        have : c ≠ '}' := fun e => not_mem_digits (c := '}') rfl (e ▸ hc)
        simpa using this
    have same := congrArg (List.takeWhile (· != '}')) digits
    rw [closed, closed] at same
    rw [← Nat.ofDigitChars_ten_toDigits (n := i), same, Nat.ofDigitChars_ten_toDigits]

theorem exists_madeOf (s : List Char) : ∃ pieces, MadeOf s pieces := by
  match s with
  | [] => exact ⟨[], .nil⟩
  | c :: s =>
    by_cases h : ∃ i, placeholder i <+: c :: s
    case pos =>
      obtain ⟨i, t, ht⟩ := h
      have shorter : t.length ≤ s.length := by
        have lengths := congrArg List.length ht
        rw [placeholder, List.cons_append, List.cons_append, List.length_cons, List.length_cons,
          List.length_append] at lengths
        omega
      obtain ⟨pieces, made⟩ := exists_madeOf t
      exact ⟨_, ht ▸ made.hole i⟩
    case neg =>
      obtain ⟨pieces, made⟩ := exists_madeOf s
      exact ⟨_, made.char (not_exists.mp h)⟩
termination_by s.length

theorem MadeOf.unique (h : MadeOf s pieces) (h' : MadeOf s pieces') : pieces = pieces' := by
  induction h generalizing pieces'
  case nil => cases h'; rfl
  case hole i rest ih =>
    generalize eq : placeholder i ++ _ = t at h'
    cases h'
    case nil => cases eq
    case hole j rest' =>
      obtain rfl : i = j := placeholder_prefix_iff.mp ⟨_, eq⟩
      rw [ih (List.append_cancel_left eq ▸ rest')]
    case char other _ => exact absurd ⟨_, eq⟩ (other i)
  case char other rest ih =>
    generalize eq : List.cons _ _ = t at h'
    cases h'
    case nil => cases eq
    case hole j _ => exact absurd ⟨_, eq.symm⟩ (other j)
    case char other' rest' =>
      obtain ⟨rfl, rfl⟩ := List.cons.inj eq
      rw [ih rest']

theorem substituted_iff (h : MadeOf template.toList pieces) {result : String} :
    Substituted template args result ↔ result.toList = pieces.flatMap (·.filled args) where
  mp := fun ⟨_, made, eq⟩ => made.unique h ▸ eq
  mpr eq := ⟨pieces, h, eq⟩

theorem MadeOf.occurrences_eq (h : MadeOf s pieces) (i : Nat) :
    occurrences (placeholder i) s = pieces.count (.hole i) := by
  induction h
  case nil => exact occurrences_nil (List.cons_ne_nil _ _)
  case hole s pieces j rest ih =>
    have first : placeholder j ++ s = '{' :: (Nat.toDigits 10 j ++ ['}'] ++ s) := rfl
    have after : occurrences (placeholder i) (Nat.toDigits 10 j ++ ['}'] ++ s) = pieces.count (.hole i) :=
      (occurrences_append not_mem_placeholder).trans ih
    rw [first, occurrences_cons, after, ← first, List.count_cons]
    by_cases e : i = j
    case pos => simp [e]
    case neg => simp [placeholder_prefix_iff, e, Ne.symm e]
  case char other rest ih =>
    rw [occurrences_cons, if_neg (other i), ih, List.count_cons_of_ne (by simp)]
    rfl

/- One more argument -/

-- The text with these arguments in place. Its places are for the argument after them.
def Piece.places (args : List String) : Piece → List (Option Char)
  | hole i => if i = args.length then [none] else ((hole i).filled args).map some
  | char c => [some c]

theorem Piece.write_places (args : List String) (p : Piece) :
    write (placeholder args.length) (p.places args) = p.filled args := by
  cases p
  case hole i =>
    rw [places]
    split
    case isTrue e => simp [filled, e]
    case isFalse => simpa using write_map_some _ _ []
  case char => rfl

theorem Piece.write_places_concat (args : List String) (arg : String) (p : Piece) :
    write arg.toList (p.places args) = p.filled (args ++ [arg]) := by
  cases p
  case hole i =>
    rw [places]
    split
    case isTrue e => simp [filled, e]
    case isFalse e =>
      have same : (args ++ [arg])[i]? = args[i]? := by
        rw [List.getElem?_append, List.getElem?_singleton]
        split
        case isTrue => rfl
        case isFalse h => rw [if_neg (by omega), List.getElem?_eq_none (by omega)]
      simpa [filled, same] using write_map_some _ _ []
  case char => rfl

theorem write_flatMap {word : List Char} {f : Piece → List (Option Char)} :
    write word (pieces.flatMap f) = pieces.flatMap fun p => write word (f p) :=
  List.flatMap_assoc

theorem count_places : (pieces.flatMap (·.places args)).count none = pieces.count (.hole args.length) := by
  induction pieces
  case nil => rfl
  case cons p pieces ih =>
    rw [List.flatMap_cons, List.count_append, ih, List.count_cons, Nat.add_comm]
    congr 1
    cases p
    case hole i => by_cases h : i = args.length <;> simp [Piece.places, h, List.count_eq_zero]
    case char => simp [Piece.places]

theorem fill_concat (template : String) (args : List String) (arg : String) :
    (fill template (args ++ [arg])).toList =
      replaceAll (placeholder args.length) arg.toList (fill template args).toList := by
  simp [fill, List.zipIdx_append]

theorem substituted_concat_iff (h : Substituted template args (fill template args)) (arg : String) :
    Substituted template (args ++ [arg]) (fill template (args ++ [arg])) ↔
      arg.toList = placeholder args.length ∨
        occurrences (placeholder args.length) (fill template args).toList =
          occurrences (placeholder args.length) template.toList := by
  obtain ⟨pieces, made, eq⟩ := h
  have before : (fill template args).toList =
      write (placeholder args.length) (pieces.flatMap (·.places args)) := by
    rw [eq, write_flatMap]
    simp only [Piece.write_places]
  have after : pieces.flatMap (·.filled (args ++ [arg])) =
      write arg.toList (pieces.flatMap (·.places args)) := by
    rw [write_flatMap]
    simp only [Piece.write_places_concat]
  rw [substituted_iff made, fill_concat, after, before, made.occurrences_eq, ← count_places]
  exact replaceAll_write_iff not_mem_placeholder _ _

/- All arguments -/

theorem MadeOf.flatMap_filled_nil (h : MadeOf s pieces) : pieces.flatMap (·.filled []) = s := by
  induction h
  case nil => rfl
  case hole i rest ih => rw [List.flatMap_cons, ih]; rfl
  case char rest ih => rw [List.flatMap_cons, ih]; rfl

theorem substituted_nil (template : String) : Substituted template [] (fill template []) := by
  obtain ⟨pieces, made⟩ := exists_madeOf template.toList
  exact ⟨pieces, made, by simp [fill, made.flatMap_filled_nil]⟩

-- Filling is substitution for the arguments one after the other exactly if no argument changes how often
-- the placeholder of the next one occurs, or the next one is its own placeholder.
theorem fill_substituted_iff (template : String) (args : List String) :
    (∀ front, front <+: args → Substituted template front (fill template front)) ↔
      ∀ front arg, front ++ [arg] <+: args → arg.toList = placeholder front.length ∨
        occurrences (placeholder front.length) (fill template front).toList =
          occurrences (placeholder front.length) template.toList := by
  constructor
  case mp =>
    intro all front arg h
    have before := all front ((List.prefix_append _ _).trans h)
    exact (substituted_concat_iff before arg).mp (all _ h)
  case mpr =>
    intro none front h
    induction front using List.reverseRecOn
    case nil => exact substituted_nil template
    case append_singleton front arg ih =>
      have before := ih ((List.prefix_append _ _).trans h)
      exact (substituted_concat_iff before arg).mpr (none front arg h)

-- A single argument is put in as it is.
theorem fill_singleton (template arg : String) : Substituted template [arg] (fill template [arg]) := by
  refine (substituted_concat_iff (substituted_nil template) arg).mpr (.inr ?_)
  simp [fill]

-- The first argument brings along the placeholder of the second.
theorem fill_again :
    fill "\x7b0\x7d \x7b1\x7d" ["\x7b1\x7d", "x"] = "x x" ∧
    Substituted "\x7b0\x7d \x7b1\x7d" ["\x7b1\x7d", "x"] "\x7b1\x7d x" ∧
    ¬Substituted "\x7b0\x7d \x7b1\x7d" ["\x7b1\x7d", "x"] "x x" := by
  have blank (s : List Char) (i : Nat) : ¬placeholder i <+: ' ' :: s := by simp [placeholder]
  have made : MadeOf "\x7b0\x7d \x7b1\x7d".toList [.hole 0, .char ' ', .hole 1] :=
    .hole 0 (.char (blank _) (.hole 1 .nil))
  rw [substituted_iff made, substituted_iff made]
  decide

end Template

end ClassLift.Text
