import ClassLift.Text.WhiteSpace
import Mathlib.Data.List.TakeWhile

/-!
Trimming a text whose parts are known: what is before the first character that stays is dropped, and
what is after the last one.
-/

namespace ClassLift.Text

variable {front word back : List Char}

-- What is dropped ends where something begins that stays.
theorem dropWhile_front {p : Char → Bool} (dropped : ∀ c ∈ front, p c) (stays : ∀ c ∈ word.head?, p c = false) :
    (front ++ word).dropWhile p = word := by
  rw [List.dropWhile_append_of_pos dropped]
  cases word
  case nil => rfl
  case cons c word => simp [stays c rfl]

theorem trimStart_append (blank : ∀ c ∈ front, isBlank c) (h : ∀ c ∈ word.head?, isBlank c = false) :
    trimStart (front ++ word) = word :=
  dropWhile_front blank h

theorem trimEnd_append (blank : ∀ c ∈ back, isBlank c) (h : ∀ c ∈ word.getLast?, isBlank c = false) :
    trimEnd (word ++ back) = word := by
  rw [trimEnd, List.reverse_append, trimStart_append, List.reverse_reverse]
  · exact fun c hc => blank c (List.mem_reverse.mp hc)
  · exact fun c hc => h c (List.head?_reverse ▸ hc)

theorem trim_append (blank : ∀ c ∈ front ++ back, isBlank c) (ne : word ≠ [])
    (h : ∀ c ∈ word, isBlank c = false) : trim (front ++ word ++ back) = word := by
  have head (c : Char) (hc : c ∈ (word ++ back).head?) : isBlank c = false := by
    obtain ⟨d, word, rfl⟩ := List.exists_cons_of_ne_nil ne
    exact h c (Option.some.inj hc ▸ List.mem_cons_self)
  rw [List.append_assoc, trim, trimStart_append (fun c hc => blank c (List.mem_append_left _ hc)) head,
    trimEnd_append (fun c hc => blank c (List.mem_append_right _ hc))]
  exact fun c hc => h c (List.mem_of_mem_getLast? hc)

-- Only blanks are trimmed.
theorem exists_trimStart (s : List Char) : ∃ front, s = front ++ trimStart s ∧ ∀ c ∈ front, isBlank c :=
  ⟨s.takeWhile isBlank, List.takeWhile_append_dropWhile.symm, fun _ => List.mem_takeWhile_imp⟩

theorem exists_trimEnd (s : List Char) : ∃ back, s = trimEnd s ++ back ∧ ∀ c ∈ back, isBlank c := by
  obtain ⟨front, e, blank⟩ := exists_trimStart s.reverse
  refine ⟨front.reverse, ?_, fun c hc => blank c (List.mem_reverse.mp hc)⟩
  rw [trimEnd, ← List.reverse_append, ← e, List.reverse_reverse]

theorem trim_ne_nil {c : Char} (hc : c ∈ word) (h : isBlank c = false) : trim word ≠ [] := by
  intro none
  obtain ⟨front, start, blank⟩ := exists_trimStart word
  obtain ⟨back, stop, blank'⟩ := exists_trimEnd (trimStart word)
  have none : trimEnd (trimStart word) = [] := none
  rw [none, List.nil_append] at stop
  rw [start, stop, List.mem_append] at hc
  have isBlank := hc.elim (blank c) (blank' c)
  simp [h] at isBlank

end ClassLift.Text
