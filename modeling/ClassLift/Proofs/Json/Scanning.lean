import ClassLift.Json.Token
import Mathlib.Data.List.Forall2
import Mathlib.Tactic.IntervalCases

/-!
A text is scanned part by part. A number has no end of its own, so how a part is scanned depends on how
the next one begins.
-/

namespace ClassLift.Json

variable {c : Char} {w w' rest : List Char} {t : Token} {ts ts' : List Token} {m k : Mode} {n d : Nat}

/- Scanning from the middle of a text -/

namespace Scanner

variable {s : Scanner} {a : List Token}

-- The same place in a text that began with further tokens.
def after (s : Scanner) (a : List Token) : Scanner :=
  { s with tokens := s.tokens ++ a }

theorem start_after : (s.after a).start c = (s.start c).after a := by
  unfold start
  repeat' split
  all_goals rfl

theorem step_after : (s.after a).step c = (s.step c).after a := by
  obtain ⟨mode, tokens⟩ := s
  cases mode
  case between => exact start_after
  case word left t =>
    simp only [step, stepWord, after]
    repeat' split
    all_goals rfl
  case number part v =>
    simp only [step, stepNumber, after]
    repeat' split
    case h_3.isTrue => exact start_after (s := ⟨.between, .number v :: tokens⟩)
    all_goals rfl
  case string =>
    simp only [step, stepString, after]
    repeat' split
    all_goals rfl
  case escape =>
    simp only [step, stepEscape, after]
    split <;> rfl
  case hex =>
    simp only [step, stepHex, after]
    split <;> rfl
  case stopped => rfl

theorem finish_after : (s.after a).finish = a.reverse ++ s.finish := by
  unfold finish after
  cases s.mode <;> simp

theorem foldl_step_after : w.foldl step (s.after a) = (w.foldl step s).after a := by
  induction w generalizing s
  case nil => rfl
  case cons c w ih => rw [List.foldl_cons, List.foldl_cons, step_after, ih]

end Scanner

-- The tokens that are still to come if the scanner is in this mode.
def scanFrom (m : Mode) (text : List Char) : List Token :=
  (text.foldl Scanner.step { mode := m }).finish

theorem scanFrom_cons : scanFrom m (c :: rest) =
    (Scanner.step { mode := m } c).tokens.reverse ++
      scanFrom (Scanner.step { mode := m } c).mode rest := by
  have now := Scanner.foldl_step_after (w := rest) (s := { mode := (Scanner.step { mode := m } c).mode })
    (a := (Scanner.step { mode := m } c).tokens)
  rw [scanFrom, scanFrom, List.foldl_cons, ← Scanner.finish_after, ← now]
  rfl

theorem scanFrom_enter (h : Scanner.step { mode := m } c = { mode := k }) :
    scanFrom m (c :: rest) = scanFrom k rest := by
  rw [scanFrom_cons, h]
  rfl

theorem scanFrom_emit (h : Scanner.step { mode := m } c = { tokens := [t] }) :
    scanFrom m (c :: rest) = t :: scan rest := by
  rw [scanFrom_cons, h]
  rfl

/- Blanks and marks -/

def Blank (w : List Char) : Prop :=
  ∀ c ∈ w, c ∈ [' ', '\n', '\t', '\r']

-- No number goes on into this text.
def Stops (text : List Char) : Prop :=
  ∀ c ∈ text.head?, NumberPart.digits.next? c = none

-- Whatever comes next, this part of a text is these tokens.
def Scans (w : List Char) (ts : List Token) : Prop :=
  ∀ rest, scan (w ++ rest) = ts ++ scan rest

-- The same, if no number goes on into what comes next.
def Spells (w : List Char) (ts : List Token) : Prop :=
  ∀ rest, Stops rest → scan (w ++ rest) = ts ++ scan rest

theorem Stops.append (h : Stops w) (hr : Stops rest) : Stops (w ++ rest) := by
  cases w
  case nil => exact hr
  case cons => exact h

theorem blank_nil : Blank [] :=
  nofun

theorem Blank.stops (h : Blank w) : Stops w := by
  intro c hc
  have := h c (List.mem_of_mem_head? hc)
  simp only [List.mem_cons, List.not_mem_nil, or_false] at this
  obtain rfl | rfl | rfl | rfl := this <;> rfl

theorem Scans.spells (h : Scans w ts) : Spells w ts :=
  fun rest _ => h rest

theorem Scans.append (h : Scans w ts) (h' : Scans w' ts') : Scans (w ++ w') (ts ++ ts') := by
  intro rest
  rw [List.append_assoc, h, h', List.append_assoc]

theorem Scans.append_spells (h : Scans w ts) (h' : Spells w' ts') : Spells (w ++ w') (ts ++ ts') := by
  intro rest hr
  rw [List.append_assoc, h, h' _ hr, List.append_assoc]

theorem Spells.append (h : Spells w ts) (h' : Spells w' ts') (stops : Stops w') :
    Spells (w ++ w') (ts ++ ts') := by
  intro rest hr
  rw [List.append_assoc, h _ (stops.append hr), h' _ hr, List.append_assoc]

theorem Spells.append_scans (h : Spells w ts) (h' : Scans w' ts') (stops : Stops w')
    (ends : w' ≠ []) : Scans (w ++ w') (ts ++ ts') := by
  intro rest
  have stops : Stops (w' ++ rest) := by
    obtain ⟨c, w', rfl⟩ := List.exists_cons_of_ne_nil ends
    exact stops
  rw [List.append_assoc, h _ stops, h', List.append_assoc]

theorem Spells.scan_eq (h : Spells w ts) : scan w = ts := by
  have := h [] (by simp [Stops])
  simpa [scan, Scanner.finish] using this

theorem Blank.scans (h : Blank w) : Scans w [] := by
  intro rest
  induction w
  case nil => rfl
  case cons c w ih =>
    refine Eq.trans (scanFrom_enter (m := .between) (k := .between) ?_)
      (ih fun c hc => h c (List.mem_cons_of_mem _ hc))
    have := h c List.mem_cons_self
    simp only [List.mem_cons, List.not_mem_nil, or_false] at this
    obtain rfl | rfl | rfl | rfl := this <;> rfl

def marks : List (Char × Token) := [
    ('{', .openBrace), ('}', .closeBrace), ('[', .openBracket), (']', .closeBracket), (',', .comma),
    (':', .colon)]

theorem scans_mark (h : (c, t) ∈ marks) : Scans [c] [t] := by
  intro rest
  refine scanFrom_emit (m := .between) ?_
  simp only [marks, List.mem_cons, Prod.mk.injEq, List.not_mem_nil, or_false] at h
  obtain ⟨rfl, rfl⟩ | ⟨rfl, rfl⟩ | ⟨rfl, rfl⟩ | ⟨rfl, rfl⟩ | ⟨rfl, rfl⟩ | ⟨rfl, rfl⟩ := h
  all_goals rfl

theorem stops_mark (h : (c, t) ∈ marks) : Stops (c :: rest) := by
  simp only [marks, List.mem_cons, Prod.mk.injEq, List.not_mem_nil, or_false] at h
  obtain ⟨rfl, -⟩ | ⟨rfl, -⟩ | ⟨rfl, -⟩ | ⟨rfl, -⟩ | ⟨rfl, -⟩ | ⟨rfl, -⟩ := h
  all_goals exact fun _ hc => Option.some.inj hc ▸ rfl

/- Words -/

theorem scanFrom_word {left : List Char} (h : left ≠ []) :
    scanFrom (.word left t) (left ++ rest) = t :: scan rest := by
  induction left
  case nil => exact absurd rfl h
  case cons c left ih =>
    cases left
    case nil => exact scanFrom_emit (by simp [Scanner.step, Scanner.stepWord, Scanner.emit])
    case cons d left =>
      rw [List.cons_append, scanFrom_enter (k := .word (d :: left) t)]
      · exact ih (List.cons_ne_nil _ _)
      · simp [Scanner.step, Scanner.stepWord, Scanner.enter]

theorem scans_word (h : w ≠ []) (start : Scanner.step {} c = { mode := .word w t }) :
    Scans (c :: w) [t] :=
  fun _ => (scanFrom_enter (m := .between) start).trans (scanFrom_word h)

/- Numbers -/

theorem NumberPart.next?_of_stops {part : NumberPart} (complete : part.isComplete)
    (h : NumberPart.digits.next? c = none) : part.next? c = none := by
  simp only [next?, next?.afterInteger] at h
  split at h
  case isTrue => cases h
  case isFalse digit =>
    split at h
    case isTrue => cases h
    case isFalse point =>
      split at h
      case isTrue => cases h
      case isFalse exponent =>
        cases part <;> simp_all [next?, next?.afterInteger, isComplete]

-- A number ends with whatever does not go on with it.
theorem scanFrom_number {p : NumberPart} {v : Option Nat} (complete : p.isComplete)
    (stops : Stops rest) : scanFrom (.number p v) rest = .number v :: scan rest := by
  cases rest
  case nil => simp [scanFrom, scan, Scanner.finish, complete]
  case cons c rest =>
    have none := NumberPart.next?_of_stops complete (stops c rfl)
    have now : Scanner.step { mode := .number p v } c =
        (Scanner.step {} c).after [.number v] := by
      rw [← Scanner.step_after]
      simp [Scanner.step, Scanner.stepNumber, none, complete, Scanner.emit, Scanner.after]
    change scanFrom (.number p v) (c :: rest) = .number v :: scanFrom .between (c :: rest)
    rw [scanFrom_cons, scanFrom_cons, now]
    simp [Scanner.after]

theorem scanFrom_digit (h : d < 10) :
    scanFrom (.number .digits (some n)) (Nat.digitChar d :: rest) =
      scanFrom (.number .digits (some (10 * n + d))) rest := by
  refine scanFrom_enter ?_
  interval_cases d <;> rfl

theorem scan_toDigits (h : 0 < n) :
    scan (Nat.toDigits 10 n ++ rest) = scanFrom (.number .digits (some n)) rest := by
  induction n using Nat.strongRecOn generalizing rest
  case ind n ih =>
    by_cases small : n < 10
    case pos =>
      rw [Nat.toDigits_of_lt_base small]
      refine scanFrom_enter (m := .between) ?_
      interval_cases n <;> rfl
    case neg =>
      rw [Nat.toDigits_of_base_le (by omega) (by omega), List.append_assoc,
        ih (n / 10) (by omega) (by omega), List.singleton_append,
        scanFrom_digit (Nat.mod_lt _ (by omega)), Nat.div_add_mod]

theorem hexValue?_digitChar (h : d < 16) : hexValue? (Nat.digitChar d) = some d := by
  interval_cases d <;> rfl

/- Parts -/

theorem spells_intercalate {parts : List (List Char)} {tokens : List (List Token)}
    (h : List.Forall₂ Spells parts tokens) :
    Spells (List.intercalate [','] parts) (List.intercalate [.comma] tokens) := by
  induction h
  case nil => exact fun _ _ => rfl
  case cons w ts ws tss first h ih =>
    cases h
    case nil => simpa using first
    case cons =>
      have comma : Scans [','] [.comma] := scans_mark (by decide)
      rw [List.intercalate_cons_cons, List.intercalate_cons_cons, List.append_assoc, List.append_assoc]
      exact first.append (comma.append_spells ih) (stops_mark (t := .comma) (by decide))

-- Brackets around parts that have commas between them.
def encloseTokens (first last : Token) (tokens : List (List Token)) : List Token :=
  first :: List.intercalate [.comma] tokens ++ [last]

end ClassLift.Json
