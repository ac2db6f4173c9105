import ClassLift.Proofs.Json.Reading
import ClassLift.Proofs.Text.Trimming
import ClassLift.Tree.Flags
import Mathlib.Data.Nat.Bitwise

/-!
The text of flags names exactly these flags. It is a list of parts with bars between them, and reads
back part by part.
-/

namespace ClassLift

namespace Flags

variable {f : Flags} {a word b : List Char} {n d : Nat} {c : Char}

/- Hexadecimal numbers -/

theorem hex?_toDigits (n : Nat) : hex? (Nat.toDigits 16 n) = some n := by
  have folded : (Nat.toDigits 16 n).foldlM (fun n c => (16 * n + ·) <$> Json.hexValue? c) 0 = some n := by
    induction n using Nat.strongRecOn
    case ind n ih =>
      by_cases small : n < 16
      case pos => simp [Nat.toDigits_of_lt_base small, Json.hexValue?_digitChar small]
      case neg =>
        rw [Nat.toDigits_of_base_le (by omega) (by omega), List.foldlM_append, ih _ (by omega)]
        simp [Json.hexValue?_digitChar (Nat.mod_lt n (by omega : 0 < 16)), Nat.div_add_mod]
  rw [hex?, if_neg (by simp [Nat.toDigits_ne_nil]), folded]

theorem mem_toDigits (h : c ∈ Nat.toDigits 16 n) : ∃ d < 16, c = Nat.digitChar d := by
  induction n using Nat.strongRecOn
  case ind n ih =>
    by_cases small : n < 16
    case pos =>
      rw [Nat.toDigits_of_lt_base small, List.mem_singleton] at h
      exact ⟨n, small, h⟩
    case neg =>
      rw [Nat.toDigits_of_base_le (by omega) (by omega), List.mem_append, List.mem_singleton] at h
      obtain h | h := h
      · exact ih _ (by omega) h
      · exact ⟨n % 16, Nat.mod_lt _ (by omega), h⟩

/- Parts -/

-- A word that stands for some flags between two bars.
structure Names (word : List Char) (f : Flags) : Prop where
  ne    : word ≠ []
  tidy  : ∀ c ∈ word, c ≠ '|' ∧ Text.isBlank c = false
  means : part? word = some f

theorem names_of_mem {p : String × Flags} (h : p ∈ named) : Names p.1.toList p.2 := by
  have tidy (word : List Char) (h : word.all fun c => c != '|' && !Text.isBlank c) :
      ∀ c ∈ word, c ≠ '|' ∧ Text.isBlank c = false := by
    simpa using h
  simp only [named, List.mem_cons, List.not_mem_nil, or_false] at h
  obtain rfl | rfl := h
  all_goals exact ⟨by decide, tidy _ (by decide), by decide⟩

theorem part?_hex (bits : UInt16) : part? (hex bits).toList = some ⟨bits⟩ := by
  have noSign (digits : List Char) : Nat.toDigits 16 bits.toNat ≠ '+' :: digits := fun e => by
    obtain ⟨d, hd, e⟩ := mem_toDigits (e ▸ List.mem_cons_self : '+' ∈ Nat.toDigits 16 bits.toNat)
    exact (by decide : ∀ d < 16, '+' ≠ Nat.digitChar d) d hd e
  rw [hex, String.toList_ofList]
  unfold part?
  split
  case h_1 e => exact absurd (List.cons.inj (List.cons.inj e).right).right (noSign _)
  case h_2 e =>
    have e := (List.cons.inj (List.cons.inj e).right).right
    have small : bits.toNat < UInt16.size := bits.toNat_lt
    simp [← e, ofHex?, hex?_toDigits, small]
  case h_3 other => exact absurd rfl (other _)

theorem names_hex (bits : UInt16) : Names (hex bits).toList ⟨bits⟩ := by
  refine ⟨by simp [hex], fun c hc => ?_, part?_hex bits⟩
  rw [hex, String.toList_ofList] at hc
  obtain _ | ⟨_, _ | ⟨_, hc⟩⟩ := hc
  · decide
  · decide
  · obtain ⟨d, hd, rfl⟩ := mem_toDigits hc
    exact (by decide : ∀ d < 16, Nat.digitChar d ≠ '|' ∧ Text.isBlank (Nat.digitChar d) = false) d hd

theorem blank_space : Text.isBlank ' ' :=
  rfl

-- Blanks beside a word do not matter.
theorem Names.splitOn (h : Names word f) (blank : ∀ c ∈ a ++ b, Text.isBlank c) :
    (a ++ word ++ b).splitOn '|' = [a ++ word ++ b] ∧
      Flags.part? (Text.trim (a ++ word ++ b)) = some f := by
  have bar (hc : '|' ∈ a ++ b) : False := absurd (blank _ hc) (by decide)
  refine ⟨List.splitOn_eq_singleton fun hc => ?_, ?_⟩
  · simp only [List.mem_append] at hc bar
    obtain (hc | hc) | hc := hc
    · exact bar (.inl hc)
    · exact (h.tidy _ hc).left rfl
    · exact bar (.inr hc)
  · rw [Text.trim_append blank h.ne fun c hc => (h.tidy c hc).right, h.means]

-- The flags together with those of all parts.
def unite (f : Flags) (parts : List (String × Flags)) : Flags :=
  parts.foldl (fun f p => f.union p.2) f

theorem foldlM_splitOn {p : String × Flags} {parts : List (String × Flags)}
    (blank : ∀ c ∈ a, Text.isBlank c) (h : ∀ q ∈ p :: parts, Names q.1.toList q.2) :
    ((a ++ List.intercalate [' ', '|', ' '] ((p :: parts).map (·.1.toList))).splitOn '|').foldlM
      (fun f part => f.union <$> Flags.part? (Text.trim part)) f = some (f.unite (p :: parts)) := by
  induction parts generalizing a f p
  case nil =>
    obtain ⟨whole, named⟩ := (h p List.mem_cons_self).splitOn (a := a) (b := []) (by simpa)
    rw [List.append_nil] at whole named
    rw [List.map_singleton, List.intercalate_singleton, whole]
    simp [named, unite]
  case cons q parts ih =>
    obtain ⟨whole, named⟩ := (h p List.mem_cons_self).splitOn (a := a) (b := [' '])
      (by simpa [or_imp, forall_and, blank_space] using blank)
    have bars : a ++ List.intercalate [' ', '|', ' '] ((p :: q :: parts).map (·.1.toList)) =
        (a ++ p.1.toList ++ [' ']) ++
          '|' :: ([' '] ++ List.intercalate [' ', '|', ' '] ((q :: parts).map (·.1.toList))) := by
      simp [List.intercalate_cons_cons]
    rw [bars, List.splitOn_append_cons_self, whole, List.singleton_append, List.foldlM_cons, named]
    exact ih (by simp [blank_space]) fun q hq => h q (List.mem_cons_of_mem _ hq)

/- All flags -/

-- The parts of the text, and what they stand for.
def parts (f : Flags) : List (String × Flags) :=
  named.filter (fun p => f.contains p.2) ++ if f.rest == 0 then [] else [(hex f.rest, ⟨f.rest⟩)]

theorem toText_toList (f : Flags) :
    f.toText.toList = List.intercalate [' ', '|', ' '] (f.parts.map (·.1.toList)) := by
  rw [toText, String.toList_intercalate, parts, names]
  split <;> simp [Function.comp_def]

theorem names_of_mem_parts {p : String × Flags} (h : p ∈ f.parts) : Names p.1.toList p.2 := by
  rw [parts, List.mem_append] at h
  obtain h | h := h
  · exact names_of_mem (List.mem_of_mem_filter h)
  · split at h
    · cases h
    · exact List.mem_singleton.mp h ▸ names_hex f.rest

-- Of a single bit either all or nothing is set.
theorem and_of_bit {i : Nat} {g : Flags} (h : g.bits.toNat = 2 ^ i) :
    f.bits &&& g.bits = if f.contains g then g.bits else 0 := by
  have numbers : (f.bits &&& g.bits).toNat = (f.bits.toNat.testBit i).toNat * g.bits.toNat := by
    rw [UInt16.toNat_and, h, Nat.and_two_pow]
  cases set : f.bits.toNat.testBit i
  case false =>
    have none : f.bits &&& g.bits = 0 := UInt16.toNat_inj.mp (by simpa [set] using numbers)
    have some : g.bits ≠ 0 := fun e => (Nat.two_pow_pos i).ne (by simpa [e] using h)
    simp [contains, none, some.symm]
  case true =>
    have all : f.bits &&& g.bits = g.bits := UInt16.toNat_inj.mp (by simpa [set] using numbers)
    simp [contains, all]

theorem bits_eq (f : Flags) :
    f.bits = (f.bits &&& static.bits) ||| (f.bits &&& synthesized.bits) ||| f.rest := by
  refine UInt16.toBitVec_inj.mp ?_
  simp only [rest, union, UInt16.toBitVec_or, UInt16.toBitVec_and, UInt16.toBitVec_not]
  rw [← BitVec.and_or_distrib_left, ← BitVec.and_or_distrib_left, BitVec.or_not_self,
    BitVec.and_allOnes]

theorem unite_parts (f : Flags) : unite {} f.parts = f := by
  have static := f.and_of_bit (g := static) (i := 0) rfl
  have synthesized := f.and_of_bit (g := synthesized) (i := 1) rfl
  have bits := f.bits_eq
  rw [static, synthesized] at bits
  have eq : unite {} f.parts = ⟨f.bits⟩ := by
    rw [bits]
    by_cases h : f.contains .static <;> by_cases h' : f.contains .synthesized <;>
      by_cases none : f.rest = 0 <;> simp [parts, named, unite, union, h, h', none]
  exact eq

theorem ofText?_toText (f : Flags) : ofText? f.toText.toList = some f := by
  have united := f.unite_parts
  have eq := f.toText_toList
  cases parts : f.parts
  case nil =>
    rw [parts] at eq united
    rw [eq]
    exact congrArg some united
  case cons p ps =>
    have named (q) (hq : q ∈ p :: ps) : Names q.1.toList q.2 := names_of_mem_parts (parts ▸ hq)
    have read := foldlM_splitOn (f := {}) (a := []) (by simp) named
    rw [List.nil_append, ← parts, ← eq, united] at read
    have present : Text.trim f.toText.toList ≠ [] := by
      have first := named p List.mem_cons_self
      obtain ⟨c, hc⟩ := List.exists_mem_of_ne_nil _ first.ne
      refine Text.trim_ne_nil (c := c) ?_ (first.tidy c hc).right
      rw [eq, parts]
      cases ps <;> simp [List.intercalate_cons_cons, hc]
    rw [ofText?, if_neg (by simpa using present), read]

example : toText ⟨0x8003⟩ = "STATIC | SYNTHESIZED | 0x8000" := by decide

end Flags

end ClassLift
