import ClassLift.Convert.Promotion
import ClassLift.Proofs.Naming.RoundTrip
import ClassLift.Proofs.Text.Trimming

/-!
The base types that have a name. A base type is normalized exactly if it is written as a dotted name,
with blanks, braces, marks and type arguments around it, and what is left is that name. It is again a
base type that is normalized to itself, and a path that can be built.
-/

namespace ClassLift

/- Letters and numerals -/

namespace Text

variable {c : Char}

-- ASCII has letters and numerals that are in no table.
def wordRanges : List (Nat × Nat) :=
  [(0x30, 0x39), (0x41, 0x5a), (0x61, 0x7a)] ++ alphabeticRanges.toList ++ numericRanges.toList

theorem blank_apart : ∀ b ∈ blankRanges, ∀ r ∈ wordRanges, r.2 < b.1 ∨ b.2 < r.1 := by
  decide +kernel

theorem exists_range {ranges : Array (Nat × Nat)}
    (h : ranges.any fun (low, high) => low ≤ c.toNat && c.toNat ≤ high) :
    ∃ r ∈ ranges.toList, r.1 ≤ c.toNat ∧ c.toNat ≤ r.2 := by
  simpa [← Array.any_toList] using h

theorem exists_range_of_isAlphabetic (h : isAlphabetic c) :
    ∃ r ∈ wordRanges, r.1 ≤ c.toNat ∧ c.toNat ≤ r.2 := by
  unfold isAlphabetic at h
  split at h
  case isTrue =>
    rcases range_of_isAlpha h with upper | lower
    · exact ⟨(0x41, 0x5a), by simp [wordRanges], upper⟩
    · exact ⟨(0x61, 0x7a), by simp [wordRanges], lower⟩
  case isFalse =>
    obtain ⟨r, hr, within⟩ := exists_range h
    exact ⟨r, List.mem_append_left _ (List.mem_append_right _ hr), within⟩

theorem exists_range_of_isNumeric (h : isNumeric c) :
    ∃ r ∈ wordRanges, r.1 ≤ c.toNat ∧ c.toNat ≤ r.2 := by
  unfold isNumeric at h
  split at h
  case isTrue => exact ⟨(0x30, 0x39), by simp [wordRanges], range_of_isDigit h⟩
  case isFalse =>
    obtain ⟨r, hr, within⟩ := exists_range h
    exact ⟨r, List.mem_append_right _ hr, within⟩

theorem isBlank_eq_false (h : ∃ r ∈ wordRanges, r.1 ≤ c.toNat ∧ c.toNat ≤ r.2) : isBlank c = false := by
  obtain ⟨r, hr, low, high⟩ := h
  rw [isBlank, List.any_eq_false]
  intro b hb
  have apart := blank_apart b hb r hr
  simp only [Bool.and_eq_true, decide_eq_true_iff, not_and]
  omega

end Text

namespace BaseType

open Text

variable {c : Char} {name u w : List Char}

theorem isLetter_iff : isLetter c ↔ isAlphabetic c ∨ c = '_' ∨ c = '$' := by
  simp [isLetter, or_assoc]

theorem isLetterOrNumeral_iff :
    isLetterOrNumeral c ↔ isAlphabetic c ∨ isNumeric c ∨ c = '_' ∨ c = '$' := by
  rw [isLetterOrNumeral, Bool.or_eq_true, isLetter_iff, or_assoc, or_comm (b := isNumeric c = true)]

theorem isBlank_of_isLetterOrNumeral (h : isLetterOrNumeral c) : isBlank c = false := by
  rcases isLetterOrNumeral_iff.mp h with h | h | rfl | rfl
  · exact isBlank_eq_false (exists_range_of_isAlphabetic h)
  · exact isBlank_eq_false (exists_range_of_isNumeric h)
  · decide
  · decide

-- What stands around a name.
def isSign (c : Char) : Bool :=
  isMark c || c ∈ ['{', '}', '<']

theorem isSign_of_isLetterOrNumeral (h : isLetterOrNumeral c) : isSign c = false := by
  by_contra sign
  simp only [isSign, isMark, Bool.not_eq_false, Bool.or_eq_true, beq_iff_eq, List.mem_cons,
    List.not_mem_nil, decide_eq_true_iff, or_false] at sign
  rcases sign with (rfl | rfl) | rfl | rfl | rfl <;> exact absurd h (by decide)

/- The grammar -/

inductive IsIdentifier : List Char → Prop
  | word {c : Char} {s : List Char} : (isAlphabetic c ∨ c = '_' ∨ c = '$') →
    (∀ d ∈ s, isAlphabetic d ∨ isNumeric d ∨ d = '_' ∨ d = '$') → IsIdentifier (c :: s)

def IsDottedName (name : List Char) : Prop :=
  ∃ parts, parts ≠ [] ∧ (∀ part ∈ parts, IsIdentifier part) ∧ name = ['.'].intercalate parts

-- The content of the braces, if there is one pair around the whole.
def Unbraced (u w : List Char) : Prop :=
  (∃ v, u = '{' :: v ++ ['}'] ∧ w = trim v) ∨ (∀ v, u ≠ '{' :: v ++ ['}']) ∧ w = u

-- Marks and blanks may be before the name, and blanks and type arguments after it.
structure Denotes (w name marks blanks rest : List Char) : Prop where
  parts  : w = marks ++ (blanks ++ (name ++ rest))
  marks  : ∀ c ∈ marks, c = '!' ∨ c = '?'
  blanks : ∀ c ∈ blanks, isBlank c
  rest   : rest = [] ∨ ∃ gap arguments, rest = gap ++ '<' :: arguments ∧ ∀ c ∈ gap, isBlank c

theorem isIdentifier_iff : isIdentifier name ↔ IsIdentifier name := by
  cases name
  case nil => exact ⟨nofun, nofun⟩
  case cons c s =>
    simp only [isIdentifier, Bool.and_eq_true, List.all_eq_true, isLetter_iff, isLetterOrNumeral_iff]
    exact ⟨fun ⟨first, others⟩ => .word first others, fun | .word first others => ⟨first, others⟩⟩

namespace IsIdentifier

theorem ne_nil (h : IsIdentifier name) : name ≠ [] := by
  cases h
  simp

theorem isLetterOrNumeral (h : IsIdentifier name) : ∀ c ∈ name, isLetterOrNumeral c := by
  obtain ⟨first, others⟩ := h
  refine List.forall_mem_cons.mpr ⟨?_, fun d hd => isLetterOrNumeral_iff.mpr (others d hd)⟩
  rw [BaseType.isLetterOrNumeral, isLetter_iff.mpr first, Bool.true_or]

theorem no_dot (h : IsIdentifier name) : '.' ∉ name := fun dot => by
  have none : BaseType.isLetterOrNumeral '.' = false := rfl
  simp [h.isLetterOrNumeral '.' dot] at none

end IsIdentifier

theorem isDottedName_iff : isDottedName name ↔ IsDottedName name := by
  rw [isDottedName, List.all_eq_true]
  constructor
  case mp =>
    intro h
    exact ⟨name.splitOn '.', by simp, fun part hp => isIdentifier_iff.mp (h part hp),
      (List.intercalate_splitOn '.').symm⟩
  case mpr =>
    rintro ⟨parts, ne, identifiers, rfl⟩
    rw [List.splitOn_intercalate '.' (fun part hp => (identifiers part hp).no_dot) ne]
    exact fun part hp => isIdentifier_iff.mpr (identifiers part hp)

namespace IsDottedName

theorem mem (h : IsDottedName name) : ∀ c ∈ name, isLetterOrNumeral c ∨ c = '.' := by
  obtain ⟨parts, -, identifiers, rfl⟩ := h
  induction parts
  case nil => simp
  case cons part parts ih =>
    have ⟨identifier, identifiers⟩ := List.forall_mem_cons.mp identifiers
    cases parts
    case nil => simpa using fun c hc => .inl (identifier.isLetterOrNumeral c hc)
    case cons =>
      rw [List.intercalate_cons_cons, List.forall_mem_append, List.forall_mem_append]
      exact ⟨⟨fun c hc => .inl (identifier.isLetterOrNumeral c hc), by simp⟩, ih identifiers⟩

theorem ne_nil (h : IsDottedName name) : name ≠ [] := by
  rintro rfl
  exact absurd (isDottedName_iff.mpr h) (by decide)

theorem isBlank (h : IsDottedName name) : ∀ c ∈ name, isBlank c = false := by
  intro c hc
  rcases h.mem c hc with word | rfl
  · exact isBlank_of_isLetterOrNumeral word
  · decide

theorem isSign (h : IsDottedName name) : ∀ c ∈ name, isSign c = false := by
  intro c hc
  rcases h.mem c hc with word | rfl
  · exact isSign_of_isLetterOrNumeral word
  · decide

end IsDottedName

/- Taking a base type apart -/

theorem withoutBraces_iff : withoutBraces u = w ↔ Unbraced u w := by
  by_cases braced : ∃ v, u = '{' :: v ++ ['}']
  case pos =>
    obtain ⟨v, rfl⟩ := braced
    have inner : withoutBraces ('{' :: v ++ ['}']) = trim v := by simp [withoutBraces]
    rw [inner]
    constructor
    case mp => exact fun same => .inl ⟨v, rfl, same.symm⟩
    case mpr =>
      rintro (⟨v', same, rfl⟩ | ⟨not, -⟩)
      · rw [List.append_cancel_right (List.cons.inj same).right]
      · exact absurd rfl (not v)
  case neg =>
    have not (v : List Char) : u ≠ '{' :: v ++ ['}'] := fun same => braced ⟨v, same⟩
    have whole : withoutBraces u = u := by
      unfold withoutBraces
      split
      case h_2 => rfl
      case h_1 inner =>
        split
        case isFalse => rfl
        case isTrue close =>
          obtain ⟨v, rfl⟩ := List.getLast?_eq_some_iff.mp close
          exact absurd rfl (not v)
    rw [whole]
    exact ⟨fun same => .inr ⟨not, same.symm⟩, fun
      | .inl ⟨v, same, _⟩ => absurd same (not v)
      | .inr ⟨_, same⟩ => same.symm⟩

theorem isMark_of_isBlank (h : isBlank c) : isMark c = false := by
  by_contra mark
  simp only [isMark, Bool.not_eq_false, Bool.or_eq_true, beq_iff_eq] at mark
  rcases mark with rfl | rfl <;> exact absurd h (by decide)

section Denotes

variable {marks blanks rest : List Char}

theorem takeWhile_arguments {before arguments : List Char} (plain : '<' ∉ before) :
    (before ++ '<' :: arguments).takeWhile (· ≠ '<') = before := by
  have inside : ∀ c ∈ before, decide (c ≠ '<') := by
    intro c hc
    rw [decide_eq_true_iff]
    exact fun opens => plain (opens ▸ hc)
  rw [List.takeWhile_append_of_pos inside]
  simp

theorem head?_name (h : IsDottedName name) : ∀ c ∈ (name ++ rest).head?, c ∈ name := by
  obtain ⟨c, s, rfl⟩ := List.exists_cons_of_ne_nil h.ne_nil
  simp

theorem Denotes.withoutMarks_eq (d : Denotes w name marks blanks rest) (h : IsDottedName name) :
    withoutMarks w = name ++ rest := by
  have mark (c : Char) (hc : c ∈ (blanks ++ (name ++ rest)).head?) : isMark c = false := by
    cases blanks
    case nil =>
      have sign := h.isSign c (head?_name h c hc)
      rw [BaseType.isSign, Bool.or_eq_false_iff] at sign
      exact sign.left
    case cons b blanks =>
      exact isMark_of_isBlank (d.blanks c (Option.some.inj hc ▸ List.mem_cons_self))
  rw [withoutMarks, d.parts, dropWhile_front (fun c hc => by simpa [isMark] using d.marks c hc) mark]
  exact trimStart_append d.blanks fun c hc => h.isBlank c (head?_name h c hc)

theorem Denotes.withoutArguments_eq (d : Denotes w name marks blanks rest) (h : IsDottedName name) :
    withoutArguments (withoutMarks w) = name := by
  have plain : ∀ c ∈ name, c ≠ '<' := by
    rintro c hc rfl
    exact absurd (h.isSign '<' hc) (by decide)
  rw [d.withoutMarks_eq h]
  rcases d.rest with rfl | ⟨gap, arguments, rfl, gapBlank⟩
  case inl =>
    rw [List.append_nil, withoutArguments, if_neg fun opens => plain _ opens rfl]
  case inr =>
    have gapPlain : '<' ∉ gap := fun opens => absurd (gapBlank '<' opens) (by decide)
    have before : '<' ∉ name ++ gap := by
      simpa using ⟨fun opens => plain '<' opens rfl, gapPlain⟩
    rw [← List.append_assoc, withoutArguments, if_pos (by simp), takeWhile_arguments before]
    exact trimEnd_append gapBlank fun c hc => h.isBlank c (List.mem_of_mem_getLast? hc)

-- Whatever is left of a base type stands between what is taken away.
theorem exists_arguments (s : List Char) : ∃ rest, s = withoutArguments s ++ rest ∧
    (rest = [] ∨ ∃ gap arguments, rest = gap ++ '<' :: arguments ∧ ∀ c ∈ gap, isBlank c) := by
  by_cases opens : '<' ∈ s
  case neg => exact ⟨[], by rw [withoutArguments, if_neg opens, List.append_nil], .inl rfl⟩
  case pos =>
    obtain ⟨before, arguments, rfl, plain⟩ := List.eq_append_cons_of_mem opens
    have ⟨gap, parts, blank⟩ := exists_trimEnd before
    refine ⟨gap ++ '<' :: arguments, ?_, .inr ⟨gap, arguments, rfl, blank⟩⟩
    rw [withoutArguments, if_pos opens, takeWhile_arguments plain, ← List.append_assoc, ← parts]

theorem exists_denotes (w : List Char) :
    ∃ marks blanks rest, Denotes w (withoutArguments (withoutMarks w)) marks blanks rest := by
  have ⟨blanks, start, blank⟩ := exists_trimStart (w.dropWhile isMark)
  have ⟨rest, parts, type⟩ := exists_arguments (withoutMarks w)
  refine ⟨w.takeWhile isMark, blanks, rest, ?_, fun c hc => ?_, blank, type⟩
  · rw [← parts, withoutMarks, ← start, List.takeWhile_append_dropWhile]
  · simpa [isMark] using List.mem_takeWhile_imp hc

end Denotes

/- Normalization -/

-- The grammar of base types with the name that they stand for.
def Names (text name : String) : Prop :=
  IsDottedName name.toList ∧ ∃ w, Unbraced (trim text.toList) w ∧
    ∃ marks blanks rest, Denotes w name.toList marks blanks rest

theorem normalize?_eq_some {text name : String} : normalize? text = some name ↔ Names text name := by
  let left := withoutArguments (withoutMarks (withoutBraces (trim text.toList)))
  have isName : normalize? text = some name ↔ isDottedName left ∧ String.ofList left = name := by
    simp [normalize?, left]
  rw [isName]
  constructor
  case mp =>
    rintro ⟨dotted, rfl⟩
    rw [Names, String.toList_ofList]
    exact ⟨isDottedName_iff.mp dotted, _, withoutBraces_iff.mp rfl, exists_denotes _⟩
  case mpr =>
    rintro ⟨dotted, w, unbraced, marks, blanks, rest, denotes⟩
    have same : left = name.toList := by
      simp only [left, withoutBraces_iff.mpr unbraced]
      exact denotes.withoutArguments_eq dotted
    rw [same, String.ofList_toList]
    exact ⟨isDottedName_iff.mpr dotted, rfl⟩

-- There is nothing to take away from a name.
theorem Names.again {text name : String} (h : Names text name) : Names name name := by
  have ⟨dotted, _⟩ := h
  have trimmed : trim name.toList = name.toList := by
    simpa using @trim_append [] name.toList [] (by simp) dotted.ne_nil dotted.isBlank
  have bare (v : List Char) : trim name.toList ≠ '{' :: v ++ ['}'] := by
    rw [trimmed]
    intro braced
    exact absurd (dotted.isSign '{' (by simp [braced])) (by decide)
  exact ⟨dotted, name.toList, .inr ⟨bare, trimmed.symm⟩, [], [], [],
    ⟨by simp, by simp, by simp, .inl rfl⟩⟩

theorem Names.not_mem_split {text name : String} (h : Names text name) : "" ∉ Path.split name := by
  have parts := isDottedName_iff.mpr h.left
  rw [isDottedName, List.all_eq_true] at parts
  intro empty
  obtain ⟨part, hp, none⟩ := List.mem_map.mp empty
  rw [String.ofList_eq_empty_iff] at none
  exact absurd (none ▸ parts part hp) (by decide)

theorem Names.exists_buildPath {text name : String} (h : Names text name) (f : Forest) :
    ∃ g r, f.buildPath name = (g, some r) ∧ g.Spells r (Path.split name) := by
  have ⟨g, r, added, spells⟩ := Forest.exists_addPath f (Path.split_ne_nil name)
  refine ⟨g, r, ?_, spells⟩
  rw [Forest.buildPath, Path.ofText?_eq, if_neg h.not_mem_split]
  exact added

-- What has a name in the grammar is normalized to it, and nothing else is. The name is normalized to
-- itself, and as a superclass it is built in every forest, where it reads back.
theorem normalizes_named_types (text name : String) :
    (normalize? text = some name ↔ Names text name) ∧
    (normalize? text = some name → normalize? name = some name ∧
      ∀ f : Forest, ∃ g r, f.buildPath name = (g, some r) ∧ g.qualifiedName? r = some name ∧
        g.isKind r .empty = false ∧
        ∀ doc d, f.docs[doc]? = some d → d.baseType = some text → f.addSuperclass doc = (g, r)) := by
  refine ⟨normalize?_eq_some, fun normal => ?_⟩
  have names := normalize?_eq_some.mp normal
  refine ⟨normalize?_eq_some.mpr names.again, fun f => ?_⟩
  have ⟨g, r, built, spells⟩ := names.exists_buildPath f
  refine ⟨g, r, built, ?reads, ?kind, fun doc d found type => ?superclass⟩
  case reads => rw [spells.qualifiedName?_eq, Path.toText_split]
  case kind => rcases spells.chain.kind with kind | kind <;> simp [Forest.isKind, kind]
  case superclass =>
    have base : f.baseName? doc = some name := by simp [Forest.baseName?, found, type, normal]
    rw [Forest.addSuperclass, base, Option.map_some, built]

-- `{!a.b <T>}` has the name `a.b`.
theorem normalizes_named_types_marked : normalize? "\x7b!a.b <T>\x7d" = some "a.b" ∧
    normalize? "a.b" = some "a.b" ∧
    ∃ g r, ({} : Forest).buildPath "a.b" = (g, some r) ∧ g.qualifiedName? r = some "a.b" := by
  have normal : normalize? "\x7b!a.b <T>\x7d" = some "a.b" := rfl
  have ⟨again, builds⟩ := (normalizes_named_types _ _).right normal
  have ⟨g, r, built, reads, _⟩ := builds {}
  exact ⟨normal, again, g, r, built, reads⟩

end BaseType

end ClassLift
