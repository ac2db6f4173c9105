import ClassLift.Proofs.Json.Scanning

/-!
The texts of a JSON value. They differ in the blanks between their parts and in how they write the
characters of strings. All of them are scanned as the same tokens.
-/

namespace ClassLift.Json

-- Any value at all. A number is known by its value only if it is a plain natural number, and a string
-- only if it consists of characters.
inductive Tree
  | null
  | bool (value : Bool)
  | number (value : Option Nat)
  | text (value : Option String)
  | array (items : List Tree)
  | object (members : List (Option String × Tree))

/- Strings -/

def HexDigit (d : Nat) (c : Char) : Prop :=
  d < 16 ∧ (c = Nat.digitChar d ∨ c = (Nat.digitChar d).toUpper)

-- What a letter after a backslash stands for.
def shortEscapes : List (Char × Char) := [
    ('"', '"'), ('\\', '\\'), ('/', '/'), ('b', '\x08'), ('f', '\x0c'), ('n', '\n'), ('r', '\r'), ('t', '\t')]

-- The ways to write a unit of a string, which is the code of a character or one half of a surrogate pair.
inductive WritesUnit : Nat → List Char → Prop
  | raw {c : Char} (printed : 0x20 ≤ c.toNat) (quote : c ≠ '"') (slash : c ≠ '\\') : WritesUnit c.toNat [c]
  | short {letter c : Char} (h : (letter, c) ∈ shortEscapes) : WritesUnit c.toNat ['\\', letter]
  | hex {a b c d : Nat} {a' b' c' d' : Char} (ha : HexDigit a a') (hb : HexDigit b b')
    (hc : HexDigit c c') (hd : HexDigit d d') :
    WritesUnit (16 * (16 * (16 * a + b) + c) + d) ['\\', 'u', a', b', c', d']

-- The characters of a string. The halves of a pair make one of them together and none alone.
def decode : List Nat → Option (List Char)
  | [] => some []
  | [unit] => if isSurrogate unit then none else some [Char.ofNat unit]
  | high :: low :: units =>
    if isHighSurrogate high && isLowSurrogate low then
      (decode units).map (Char.ofNat (0x10000 + (high - 0xd800) * 0x400 + (low - 0xdc00)) :: ·)
    else if isSurrogate high then
      none
    else
      (decode (low :: units)).map (Char.ofNat high :: ·)

def WritesString (value : Option String) (w : List Char) : Prop :=
  ∃ units parts, List.Forall₂ WritesUnit units parts ∧ (decode units).map String.ofList = value ∧
    w = '"' :: parts.flatten ++ ['"']

/- Numbers -/

def AreDigits (w : List Char) : Prop :=
  w ≠ [] ∧ ∀ c ∈ w, c.isDigit

def IsFraction (w : List Char) : Prop :=
  ∃ digits, AreDigits digits ∧ w = '.' :: digits

def IsExponent (w : List Char) : Prop :=
  ∃ mark sign digits, mark ∈ ['e', 'E'] ∧ sign ∈ [[], ['+'], ['-']] ∧ AreDigits digits ∧
    w = mark :: sign ++ digits

-- Only a number without a sign, a fraction and an exponent is a plain one.
inductive WritesNumber : Option Nat → List Char → Prop
  | plain (n : Nat) : WritesNumber (some n) (Nat.toDigits 10 n)
  | other {sign fraction exponent : List Char} (n : Nat) (hs : sign = [] ∨ sign = ['-'])
    (hf : fraction = [] ∨ IsFraction fraction) (he : exponent = [] ∨ IsExponent exponent)
    (more : sign ++ fraction ++ exponent ≠ []) :
    WritesNumber none (sign ++ Nat.toDigits 10 n ++ fraction ++ exponent)

/- Values -/

-- A text with blanks around it.
def Spaced (P : List Char → Prop) (w : List Char) : Prop :=
  ∃ before inner after, Blank before ∧ P inner ∧ Blank after ∧ w = before ++ inner ++ after

-- Parts in brackets, with commas between them.
def Encloses (first last : Char) (parts : List (List Char)) (w : List Char) : Prop :=
  match parts with
  | [] => ∃ blank, Blank blank ∧ w = first :: blank ++ [last]
  | parts => w = first :: List.intercalate [','] parts ++ [last]

namespace Tree

mutual

def Writes : Tree → List Char → Prop
  | null, w => w = ['n', 'u', 'l', 'l']
  | bool true, w => w = ['t', 'r', 'u', 'e']
  | bool false, w => w = ['f', 'a', 'l', 's', 'e']
  | number value, w => WritesNumber value w
  | text value, w => WritesString value w
  | array items, w => ∃ parts, WritesItems items parts ∧ Encloses '[' ']' parts w
  | object members, w => ∃ parts, WritesMembers members parts ∧ Encloses '{' '}' parts w

def WritesItems : List Tree → List (List Char) → Prop
  | [], parts => parts = []
  | t :: ts, parts => ∃ w more, Spaced (Writes t) w ∧ WritesItems ts more ∧ parts = w :: more

def WritesMembers : List (Option String × Tree) → List (List Char) → Prop
  | [], parts => parts = []
  | (key, t) :: ms, parts => ∃ k w more, Spaced (WritesString key) k ∧ Spaced (Writes t) w ∧
    WritesMembers ms more ∧ parts = (k ++ ':' :: w) :: more

end

mutual

def tokens : Tree → List Token
  | null => [.null]
  | bool b => [.bool b]
  | number value => [.number value]
  | text value => [.text value]
  | array items => encloseTokens .openBracket .closeBracket (itemTokens items)
  | object members => encloseTokens .openBrace .closeBrace (memberTokens members)

def itemTokens : List Tree → List (List Token)
  | [] => []
  | t :: ts => tokens t :: itemTokens ts

def memberTokens : List (Option String × Tree) → List (List Token)
  | [] => []
  | (key, t) :: ms => (.text key :: .colon :: tokens t) :: memberTokens ms

end

end Tree

/- Scanning strings -/

section Strings

variable {c : Char} {d : Nat} {w rest : List Char} {chars cs : List Char} {units units' : List Nat}

theorem hexValue?_of_hexDigit (h : HexDigit d c) : hexValue? c = some d := by
  obtain ⟨small, rfl | rfl⟩ := h
  case inl => exact hexValue?_digitChar small
  case inr => interval_cases d <;> rfl

theorem scanFrom_unit {unit : Nat} (h : WritesUnit unit w) :
    scanFrom (.string units) (w ++ rest) = scanFrom (.string (unit :: units)) rest := by
  cases h
  case raw c printed quote slash =>
    refine scanFrom_enter ?_
    have printed : ¬c.toNat < 0x20 := Nat.not_lt.mpr printed
    simp [Scanner.step, Scanner.stepString, Scanner.enter, quote, slash, printed]
  case short letter c h =>
    simp only [shortEscapes, List.mem_cons, Prod.mk.injEq, List.not_mem_nil, or_false] at h
    obtain ⟨rfl, rfl⟩ | ⟨rfl, rfl⟩ | ⟨rfl, rfl⟩ | ⟨rfl, rfl⟩ | ⟨rfl, rfl⟩ | ⟨rfl, rfl⟩ | ⟨rfl, rfl⟩ |
      ⟨rfl, rfl⟩ := h
    all_goals exact (scanFrom_enter (k := .escape units) rfl).trans (scanFrom_enter rfl)
  case hex a b c d a' b' c' d' ha hb hc hd =>
    have digit {left code d : Nat} {c : Char} {rest : List Char} (h : HexDigit d c) :
        scanFrom (.hex (left + 2) code units) (c :: rest) =
          scanFrom (.hex (left + 1) (16 * code + d) units) rest :=
      scanFrom_enter (by simp [Scanner.step, Scanner.stepHex, hexValue?_of_hexDigit h, Scanner.enter])
    calc scanFrom (.string units) _
      _ = scanFrom (.hex 4 0 units) (a' :: b' :: c' :: d' :: rest) :=
        (scanFrom_enter (k := .escape units) rfl).trans (scanFrom_enter rfl)
      _ = scanFrom (.hex 1 (16 * (16 * (16 * 0 + a) + b) + c) units) (d' :: rest) := by
        rw [digit ha, digit hb, digit hc]
      _ = scanFrom (.string ((16 * (16 * (16 * a + b) + c) + d) :: units)) rest :=
        scanFrom_enter (by
          simp [Scanner.step, Scanner.stepHex, hexValue?_of_hexDigit hd, Scanner.enter])

theorem scanFrom_units {parts : List (List Char)} (h : List.Forall₂ WritesUnit units' parts) :
    scanFrom (.string units) (parts.flatten ++ rest) = scanFrom (.string (units'.reverse ++ units)) rest := by
  induction h generalizing units
  case nil => rfl
  case cons unit w units' parts first h ih =>
    rw [List.flatten_cons, List.append_assoc, scanFrom_unit first, ih, List.reverse_cons, List.append_assoc,
      List.singleton_append]

-- Units are put together from the last to the first, and may be divided anywhere but between the halves
-- of a pair.
theorem charsOfUnits_append (apart : ∀ high ∈ units'.head?, ∀ low ∈ units.getLast?,
    (isLowSurrogate low && isHighSurrogate high) = false) :
    charsOfUnits chars (units ++ units') = (charsOfUnits chars units).bind (charsOfUnits · units') := by
  fun_induction charsOfUnits chars units
  case case1 => rfl
  case case2 chars low high units pair point ih =>
    rw [List.cons_append, List.cons_append, charsOfUnits, if_pos pair]
    refine ih fun h hh l hl => ?_
    cases units
    case nil => cases hl
    case cons => exact apart h hh l (by simpa using hl)
  case case3 chars low high units single half =>
    rw [List.cons_append, List.cons_append, charsOfUnits, if_neg single, if_pos half]
    rfl
  case case4 chars low high units single whole ih =>
    rw [List.cons_append, List.cons_append, charsOfUnits, if_neg single, if_neg whole]
    exact ih fun h hh l hl => apart h hh l (by simpa using hl)
  case case5 chars unit half =>
    cases units'
    case nil => simp [charsOfUnits, half]
    case cons high units' =>
      have single := apart high rfl unit rfl
      simp [charsOfUnits, half, single]
  case case6 chars unit whole =>
    cases units'
    case nil => simp [charsOfUnits, whole]
    case cons high units' =>
      have single := apart high rfl unit rfl
      simp [charsOfUnits, whole, single]

theorem charsOfUnits_reverse_cons {high low : Nat}
    (single : ¬(isHighSurrogate high && isLowSurrogate low) = true) :
    charsOfUnits chars (high :: low :: units).reverse =
      (charsOfUnits chars (low :: units).reverse).bind (charsOfUnits · [high]) := by
  rw [List.reverse_cons]
  refine charsOfUnits_append ?_
  rintro _ ⟨⟩ l hl
  rw [List.getLast?_reverse] at hl
  obtain rfl := Option.some.inj hl
  rwa [Bool.and_comm, ← Bool.not_eq_true]

theorem charsOfUnits_decode (units : List Nat) (chars : List Char) :
    charsOfUnits chars units.reverse = (decode units).map (· ++ chars) := by
  fun_induction decode units
  case case1 => rfl
  case case2 unit half => simp [charsOfUnits, half]
  case case3 unit whole => simp [charsOfUnits, whole]
  case case4 high low units pair ih =>
    have apart : ∀ h ∈ [low, high].head?, ∀ l ∈ units.reverse.getLast?,
        (isLowSurrogate l && isHighSurrogate h) = false := by
      rintro _ ⟨⟩ l -
      simp only [isHighSurrogate, isLowSurrogate] at pair ⊢
      grind
    have swapped : isLowSurrogate low && isHighSurrogate high := by rwa [Bool.and_comm]
    rw [List.reverse_cons, List.reverse_cons, List.append_assoc, List.singleton_append,
      charsOfUnits_append apart, ih]
    cases decode units <;> simp [charsOfUnits, swapped]
  case case5 high low units single half =>
    rw [charsOfUnits_reverse_cons single]
    cases charsOfUnits chars (low :: units).reverse <;> simp [charsOfUnits, half]
  case case6 high low units single whole ih =>
    rw [charsOfUnits_reverse_cons single, ih]
    cases decode (low :: units) <;> simp [charsOfUnits, whole]

theorem WritesString.scans {value : Option String} (h : WritesString value w) :
    Scans w [.text value] := by
  obtain ⟨units, parts, written, rfl, rfl⟩ := h
  intro rest
  have chars := charsOfUnits_decode units []
  calc scanFrom .between ('"' :: parts.flatten ++ ['"'] ++ rest)
    _ = scanFrom (.string []) (parts.flatten ++ '"' :: rest) := by
      rw [List.append_assoc, List.cons_append, List.singleton_append, scanFrom_enter (k := .string []) rfl]
    _ = scanFrom (.string units.reverse) ('"' :: rest) := by
      rw [scanFrom_units written, List.append_nil]
    _ = .text ((decode units).map String.ofList) :: scan rest := scanFrom_emit <| by
      simp [Scanner.step, Scanner.stepString, Scanner.emit, chars]

end Strings

/- Scanning numbers -/

namespace NumberPart

variable {p q : NumberPart} {c : Char} {w w' rest : List Char} {v : Option Nat} {n : Nat}

-- The part of a number that is reached over these characters.
def Leads (p : NumberPart) (w : List Char) (q : NumberPart) : Prop :=
  w.foldlM (fun p c => p.next? c) p = some q

theorem Leads.append {r : NumberPart} (h : p.Leads w q) (h' : q.Leads w' r) : p.Leads (w ++ w') r := by
  rw [Leads, List.foldlM_append, h]
  exact h'

theorem Leads.cons {r : NumberPart} (h : p.next? c = some q) (h' : q.Leads w r) : p.Leads (c :: w) r := by
  rw [Leads, List.foldlM_cons, h]
  exact h'

-- Digits follow each other within a part that a digit leads to.
theorem leads_digits (first : ∀ c, c.isDigit → p.next? c = some q)
    (loop : ∀ c, c.isDigit → q.next? c = some q) (h : AreDigits w) : p.Leads w q := by
  obtain ⟨some, digits⟩ := h
  have stay (w : List Char) (h : ∀ c ∈ w, c.isDigit) : q.Leads w q := by
    induction w
    case nil => rfl
    case cons c w ih =>
      rw [List.forall_mem_cons] at h
      exact .cons (loop c h.1) (ih h.2)
  cases w
  case nil => exact absurd rfl some
  case cons c w =>
    rw [List.forall_mem_cons] at digits
    exact .cons (first c digits.1) (stay w digits.2)

-- A number begins with a zero only if it is one.
def ofInteger (n : Nat) : NumberPart :=
  if n = 0 then .zero else .digits

theorem isComplete_ofInteger (n : Nat) : (ofInteger n).isComplete := by
  unfold ofInteger
  split <;> rfl

theorem leads_toDigits (h : 0 < n) : Leads .sign (Nat.toDigits 10 n) .digits := by
  induction n using Nat.strongRecOn
  case ind n ih =>
    by_cases small : n < 10
    case pos =>
      rw [Nat.toDigits_of_lt_base small]
      interval_cases n <;> rfl
    case neg =>
      have last : Leads .digits [Nat.digitChar (n % 10)] .digits := by
        have : n % 10 < 10 := Nat.mod_lt _ (by omega)
        interval_cases n % 10 <;> rfl
      rw [Nat.toDigits_of_base_le (by omega) (by omega)]
      exact (ih (n / 10) (by omega) (by omega)).append last

theorem leads_integer (n : Nat) : Leads .sign (Nat.toDigits 10 n) (ofInteger n) := by
  by_cases h : n = 0
  case pos =>
    subst h
    rfl
  case neg =>
    rw [ofInteger, if_neg h]
    exact leads_toDigits (by omega)

theorem next?_of_isDigit (h : c.isDigit) : point.next? c = some fraction ∧
    fraction.next? c = some fraction ∧ exponent.next? c = some exponentDigits ∧
    exponentSign.next? c = some exponentDigits ∧ exponentDigits.next? c = some exponentDigits := by
  simp [next?, h]

theorem leads_fraction (h : IsFraction w) : Leads (ofInteger n) w .fraction := by
  obtain ⟨digits, h, rfl⟩ := h
  refine .cons (q := .point) ?_ (leads_digits (fun c h => (next?_of_isDigit h).1)
    (fun c h => (next?_of_isDigit h).2.1) h)
  unfold ofInteger
  split <;> rfl

theorem leads_exponent (hp : p = ofInteger n ∨ p = .fraction) (h : IsExponent w) :
    Leads p w .exponentDigits := by
  obtain ⟨mark, sign, digits, hm, hs, h, rfl⟩ := h
  refine .cons (q := .exponent) ?mark ?digits
  case mark =>
    simp only [List.mem_cons, List.not_mem_nil, or_false] at hm
    obtain rfl | rfl := hp
    case inl =>
      unfold ofInteger
      obtain rfl | rfl := hm
      all_goals split <;> rfl
    case inr => obtain rfl | rfl := hm <;> rfl
  case digits =>
    simp only [List.mem_cons, List.not_mem_nil, or_false] at hs
    have loop c h := (next?_of_isDigit (c := c) h).2.2.2.2
    obtain rfl | signed := hs
    case inl => exact leads_digits (fun c h => (next?_of_isDigit h).2.2.1) loop h
    case inr =>
      have signed : Leads .exponent sign .exponentSign := by obtain rfl | rfl := signed <;> rfl
      exact signed.append (leads_digits (fun c h => (next?_of_isDigit h).2.2.2.1) loop h)

theorem scanFrom_none (h : p.Leads w q) :
    scanFrom (.number p none) (w ++ rest) = scanFrom (.number q none) rest := by
  induction w generalizing p
  case nil =>
    obtain rfl : p = q := Option.some.inj h
    rfl
  case cons c w ih =>
    rw [Leads, List.foldlM_cons, Option.bind_eq_bind, Option.bind_eq_some_iff] at h
    obtain ⟨next, hn, h⟩ := h
    have step : Scanner.step { mode := .number p none } c = { mode := .number next none } := by
      cases next <;> simp [Scanner.step, Scanner.stepNumber, hn, Scanner.enter]
    exact (scanFrom_enter step).trans (ih h)

theorem next?_ne_digits (mark : c.isDigit = false) : p.next? c ≠ some .digits := by
  cases p <;> simp only [next?, next?.afterInteger, mark] <;> grind

-- What comes after the integer part takes the number its value.
theorem scanFrom_mark (mark : c.isDigit = false) (h : p.Leads (c :: w) q) :
    scanFrom (.number p v) (c :: w ++ rest) = scanFrom (.number q none) rest := by
  rw [Leads, List.foldlM_cons, Option.bind_eq_bind, Option.bind_eq_some_iff] at h
  obtain ⟨next, hn, h⟩ := h
  have step : Scanner.step { mode := .number p v } c = { mode := .number next none } := by
    have other := next?_ne_digits (p := p) mark
    cases next <;> simp_all [Scanner.step, Scanner.stepNumber, Scanner.enter]
  exact (scanFrom_enter step).trans (scanFrom_none h)

end NumberPart

section Numbers

open NumberPart

variable {fraction exponent w rest : List Char} {n : Nat}

theorem scan_integer (n : Nat) :
    scan (Nat.toDigits 10 n ++ rest) = scanFrom (.number (ofInteger n) (some n)) rest := by
  by_cases h : n = 0
  case pos =>
    subst h
    exact scanFrom_enter (m := .between) rfl
  case neg =>
    rw [scan_toDigits (by omega), ofInteger, if_neg h]

theorem leads_rest (hf : fraction = [] ∨ IsFraction fraction) (he : exponent = [] ∨ IsExponent exponent) :
    ∃ q, q.isComplete ∧ Leads (ofInteger n) (fraction ++ exponent) q := by
  obtain rfl | hf := hf
  case inl =>
    obtain rfl | he := he
    case inl => exact ⟨_, isComplete_ofInteger n, rfl⟩
    case inr => exact ⟨_, rfl, leads_exponent (.inl rfl) he⟩
  case inr =>
    obtain rfl | he := he
    case inl => exact ⟨_, rfl, (leads_fraction hf).append rfl⟩
    case inr => exact ⟨_, rfl, (leads_fraction hf).append (leads_exponent (n := n) (.inr rfl) he)⟩

theorem exists_mark (hf : fraction = [] ∨ IsFraction fraction) (he : exponent = [] ∨ IsExponent exponent)
    (h : fraction ++ exponent ≠ []) : ∃ c w, c.isDigit = false ∧ fraction ++ exponent = c :: w := by
  obtain rfl | ⟨digits, -, rfl⟩ := hf
  case inl =>
    obtain rfl | ⟨mark, sign, digits, hm, -, -, rfl⟩ := he
    case inl => exact absurd rfl h
    case inr =>
      refine ⟨mark, _, ?_, rfl⟩
      simp only [List.mem_cons, List.not_mem_nil, or_false] at hm
      obtain rfl | rfl := hm <;> rfl
  case inr => exact ⟨'.', _, rfl, rfl⟩

theorem WritesNumber.spells {value : Option Nat} (h : WritesNumber value w) :
    Spells w [.number value] := by
  cases h
  case plain n => exact fun _ stops => (scan_integer n).trans (scanFrom_number (isComplete_ofInteger n) stops)
  case other sign fraction exponent n hs hf he more =>
    intro rest stops
    obtain ⟨q, complete, leads⟩ := leads_rest (n := n) hf he
    have finish : scanFrom (.number q none) rest = .number none :: scan rest :=
      scanFrom_number complete stops
    rw [List.append_assoc _ fraction, List.append_assoc sign]
    obtain rfl | rfl := hs
    case inl =>
      obtain ⟨c, w, mark, eq⟩ := exists_mark hf he (by simpa using more)
      rw [eq] at leads ⊢
      rw [List.nil_append, List.append_assoc, scan_integer, scanFrom_mark mark leads, finish]
      rfl
    case inr =>
      have signed : scan (['-'] ++ (Nat.toDigits 10 n ++ (fraction ++ exponent)) ++ rest) =
          scanFrom (.number .sign none) (Nat.toDigits 10 n ++ (fraction ++ exponent) ++ rest) :=
        scanFrom_enter (m := .between) rfl
      rw [signed, scanFrom_none ((leads_integer n).append leads), finish]
      rfl

end Numbers

/- Scanning values -/

theorem Spaced.spells {P : List Char → Prop} {w : List Char} {ts : List Token} (h : Spaced P w)
    (inner : ∀ w, P w → Spells w ts) : Spells w ts := by
  obtain ⟨before, w, after, hb, hw, ha, rfl⟩ := h
  have := (hb.scans.append_spells (inner w hw)).append ha.scans.spells ha.stops
  rwa [List.nil_append, List.append_nil] at this

theorem Encloses.scans {a b : Char} {first last : Token} {parts : List (List Char)}
    {tokens : List (List Token)} {w : List Char} (ha : (a, first) ∈ marks) (hb : (b, last) ∈ marks)
    (h : Encloses a b parts w) (parts : List.Forall₂ Spells parts tokens) :
    Scans w (encloseTokens first last tokens) := by
  cases parts
  case nil =>
    obtain ⟨blank, hblank, rfl⟩ := h
    exact (scans_mark ha).append (hblank.scans.append (scans_mark hb))
  case cons part ts parts tokens hp more =>
    obtain rfl : w = a :: List.intercalate [','] (part :: parts) ++ [b] := h
    have between := spells_intercalate (.cons hp more)
    exact (scans_mark ha).append (between.append_scans (scans_mark hb) (stops_mark hb) (by simp))

namespace Tree

mutual

theorem Writes.spells : ∀ {t : Tree} {w : List Char}, t.Writes w → Spells w t.tokens
  | null, _, h => h ▸ (scans_word (by simp) rfl).spells
  | bool true, _, h => h ▸ (scans_word (by simp) rfl).spells
  | bool false, _, h => h ▸ (scans_word (by simp) rfl).spells
  | number _, _, h => WritesNumber.spells h
  | text _, _, h => (WritesString.scans h).spells
  | array _, _, ⟨_, items, h⟩ => (h.scans (by decide) (by decide) items.spells).spells
  | object _, _, ⟨_, members, h⟩ => (h.scans (by decide) (by decide) members.spells).spells

theorem WritesItems.spells : ∀ {ts : List Tree} {parts : List (List Char)}, WritesItems ts parts →
    List.Forall₂ Spells parts (itemTokens ts)
  | [], _, rfl => .nil
  | _ :: _, _, ⟨_, _, first, more, rfl⟩ =>
    .cons (first.spells fun _ h => h.spells) more.spells

theorem WritesMembers.spells : ∀ {ms : List (Option String × Tree)} {parts : List (List Char)},
    WritesMembers ms parts → List.Forall₂ Spells parts (memberTokens ms)
  | [], _, rfl => .nil
  | (_, _) :: _, _, ⟨_, _, _, name, value, more, rfl⟩ => by
    have name := name.spells fun _ h => (WritesString.scans h).spells
    have colon : Scans [':'] [.colon] := scans_mark (by decide)
    have value := value.spells fun _ h => h.spells
    exact .cons (name.append (colon.append_spells value) (stops_mark (t := .colon) (by decide))) more.spells

end

theorem scan_of_writes {t : Tree} {w : List Char} (h : Spaced t.Writes w) : scan w = t.tokens :=
  (h.spells fun _ h => h.spells).scan_eq

end Tree

end ClassLift.Json
