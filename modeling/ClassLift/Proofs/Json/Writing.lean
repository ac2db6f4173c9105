import ClassLift.Json.Value
import ClassLift.Proofs.Json.Grammar

/-!
What is written of a value is one of its texts, in whatever layout. So it is scanned as the tokens of
the value.
-/

namespace ClassLift.Json

variable {w : List Char} {parts parts' : List (List Char)}

/- Texts -/

theorem not_isSurrogate_toNat (c : Char) : isSurrogate c.toNat = false := by
  have := c.valid
  simp only [UInt32.isValidChar, Nat.isValidChar] at this
  simp only [isSurrogate, Char.toNat]
  grind

theorem decode_toNat (cs : List Char) : decode (cs.map Char.toNat) = some cs := by
  induction cs
  case nil => rfl
  case cons c cs ih =>
    have whole := not_isSurrogate_toNat c
    have single : isHighSurrogate c.toNat = false := by
      simp only [isSurrogate, isHighSurrogate] at whole ⊢
      grind
    cases cs
    case nil => simp [decode, whole]
    case cons d cs =>
      rw [List.map_cons] at ih
      simp [decode, whole, single, ih]

theorem writesUnit_escapeChar (c : Char) : WritesUnit c.toNat (escapeChar c) := by
  unfold escapeChar
  split
  case h_8 quote slash _ _ _ _ _ =>
    split
    case isTrue control =>
      have high : HexDigit (c.toNat / 16) (Nat.digitChar (c.toNat / 16)) := ⟨by omega, .inl rfl⟩
      have low : HexDigit (c.toNat % 16) (Nat.digitChar (c.toNat % 16)) := ⟨by omega, .inl rfl⟩
      have zero : HexDigit 0 '0' := ⟨by decide, .inl rfl⟩
      have code := WritesUnit.hex zero zero high low
      simp only [Nat.mul_zero, Nat.zero_add, Nat.div_add_mod] at code
      exact code
    case isFalse printed => exact .raw (by omega) quote slash
  all_goals exact .short (by decide)

theorem writesString_quote (s : String) : WritesString (some s) (quote s) := by
  refine ⟨s.toList.map Char.toNat, s.toList.map escapeChar, ?_, ?_, ?_⟩
  · rw [List.forall₂_map_left_iff, List.forall₂_map_right_iff, List.forall₂_same]
    exact fun c _ => writesUnit_escapeChar c
  · simp [decode_toNat]
  · simp [quote, List.flatMap]

/- Layouts -/

-- Nothing but blanks is put between the tokens.
structure Layout.Spaced (l : Layout) : Prop where
  newline : ∀ depth, Blank (l.newline depth)
  colon   : ∃ w, Blank w ∧ l.colon = ':' :: w

theorem Layout.spaced_compact : Layout.compact.Spaced where
  newline _ := by simp [compact, Blank]
  colon     := ⟨[], blank_nil, rfl⟩

theorem Layout.spaced_pretty : Layout.pretty.Spaced where
  newline depth := by simp [pretty, Blank]
  colon         := ⟨[' '], by simp [Blank], rfl⟩

-- The same text with more blanks around it.
def Widens (w w' : List Char) : Prop :=
  ∃ before after, Blank before ∧ Blank after ∧ w' = before ++ w ++ after

theorem Blank.append {w' : List Char} (h : Blank w) (h' : Blank w') : Blank (w ++ w') := by
  intro c hc
  exact (List.mem_append.mp hc).elim (h c) (h' c)

theorem spaced_self {P : List Char → Prop} (h : P w) : Spaced P w :=
  ⟨[], w, [], blank_nil, h, blank_nil, by simp⟩

theorem Widens.spaced {P : List Char → Prop} {w w' : List Char} (h : Widens w w') (hw : Spaced P w) :
    Spaced P w' := by
  obtain ⟨before, after, hb, ha, rfl⟩ := h
  obtain ⟨before', inner, after', hb', hi, ha', rfl⟩ := hw
  exact ⟨before ++ before', inner, after' ++ after, hb.append hb', hi, ha'.append ha, by simp⟩

-- The blanks of a layout go to the parts that they stand next to.
theorem Layout.Spaced.exists_encloses {l : Layout} (spaced : l.Spaced) (depth : Nat) (a b : Char)
    (parts : List (List Char)) :
    ∃ parts', List.Forall₂ Widens parts parts' ∧ Encloses a b parts' (l.enclose depth a b parts) := by
  have between (gap last : List Char) (hg : Blank gap) (hl : Blank last) (part : List Char)
      (parts : List (List Char)) :
      ∃ part' parts', List.Forall₂ Widens (part :: parts) (part' :: parts') ∧
        gap ++ List.intercalate (',' :: gap) (part :: parts) ++ last =
          List.intercalate [','] (part' :: parts') := by
    induction parts generalizing part
    case nil => exact ⟨gap ++ part ++ last, [], .cons ⟨gap, last, hg, hl, rfl⟩ .nil, by simp⟩
    case cons next parts ih =>
      obtain ⟨part', parts', widens, eq⟩ := ih next
      refine ⟨gap ++ part, part' :: parts', .cons ⟨gap, [], hg, blank_nil, by simp⟩ widens, ?_⟩
      rw [List.intercalate_cons_cons, List.intercalate_cons_cons, ← eq]
      simp
  cases parts
  case nil => exact ⟨[], .nil, [], blank_nil, rfl⟩
  case cons part parts =>
    obtain ⟨part', parts', widens, eq⟩ :=
      between _ _ (spaced.newline (depth + 1)) (spaced.newline depth) part parts
    refine ⟨part' :: parts', widens, ?_⟩
    simp only [Encloses, Layout.enclose, ← eq]
    simp

namespace Tree

theorem WritesItems.widen {ts : List Tree} (h : WritesItems ts parts)
    (widens : List.Forall₂ Widens parts parts') : WritesItems ts parts' := by
  induction ts generalizing parts parts'
  case nil =>
    obtain rfl := h
    cases widens
    rfl
  case cons t ts ih =>
    obtain ⟨w, more, first, rest, rfl⟩ := h
    obtain _ | ⟨wider, widens⟩ := widens
    exact ⟨_, _, wider.spaced first, ih rest widens, rfl⟩

theorem WritesMembers.widen {ms : List (Option String × Tree)} (h : WritesMembers ms parts)
    (widens : List.Forall₂ Widens parts parts') : WritesMembers ms parts' := by
  induction ms generalizing parts parts'
  case nil =>
    obtain rfl := h
    cases widens
    rfl
  case cons m ms ih =>
    obtain ⟨k, w, more, name, value, rest, rfl⟩ := h
    obtain _ | ⟨⟨before, after, hb, ha, rfl⟩, widens⟩ := widens
    have name : Spaced (WritesString m.1) (before ++ k) := Widens.spaced ⟨before, [], hb, blank_nil, by simp⟩ name
    have value : Spaced (Writes m.2) (w ++ after) := Widens.spaced ⟨[], after, blank_nil, ha, rfl⟩ value
    exact ⟨_, _, _, name, value, ih rest widens, by simp⟩

end Tree

/- Values -/

namespace Value

mutual

-- The value apart from how it is written.
def asTree : Value → Tree
  | null => .null
  | bool b => .bool b
  | number n => .number (some n)
  | text s => .text (some s)
  | array items => .array (itemTrees items)
  | object members => .object (memberTrees members)

def itemTrees : List Value → List Tree
  | [] => []
  | v :: vs => asTree v :: itemTrees vs

def memberTrees : List (String × Value) → List (Option String × Tree)
  | [] => []
  | (key, v) :: ms => (some key, asTree v) :: memberTrees ms

end

variable {l : Layout}

mutual

theorem writes_write (spaced : l.Spaced) (depth : Nat) : ∀ v : Value, v.asTree.Writes (v.write l depth)
  | null | bool true | bool false => rfl
  | number n => WritesNumber.plain n
  | text s => writesString_quote s
  | array items =>
    have ⟨_, widens, encloses⟩ := spaced.exists_encloses depth '[' ']' (writeItems l (depth + 1) items)
    ⟨_, (writes_writeItems spaced (depth + 1) items).widen widens, encloses⟩
  | object members =>
    have ⟨_, widens, encloses⟩ := spaced.exists_encloses depth '{' '}' (writeMembers l (depth + 1) members)
    ⟨_, (writes_writeMembers spaced (depth + 1) members).widen widens, encloses⟩

theorem writes_writeItems (spaced : l.Spaced) (depth : Nat) :
    ∀ vs, Tree.WritesItems (itemTrees vs) (writeItems l depth vs)
  | [] => rfl
  | v :: vs => ⟨_, _, spaced_self (writes_write spaced depth v), writes_writeItems spaced depth vs, rfl⟩

theorem writes_writeMembers (spaced : l.Spaced) (depth : Nat) :
    ∀ ms, Tree.WritesMembers (memberTrees ms) (writeMembers l depth ms)
  | [] => rfl
  | (key, v) :: ms => by
    obtain ⟨w, blank, colon⟩ := spaced.colon
    have value : Spaced v.asTree.Writes (w ++ v.write l depth) :=
      ⟨w, _, [], blank, writes_write spaced depth v, blank_nil, by simp⟩
    refine ⟨_, _, _, spaced_self (writesString_quote key), value, writes_writeMembers spaced depth ms, ?_⟩
    rw [writeMembers, colon, List.append_assoc, List.cons_append]

end

mutual

def tokens : Value → List Token
  | null => [.null]
  | bool b => [.bool b]
  | number n => [.number (some n)]
  | text s => [.text (some s)]
  | array items => encloseTokens .openBracket .closeBracket (itemTokens items)
  | object members => encloseTokens .openBrace .closeBrace (memberTokens members)

def itemTokens : List Value → List (List Token)
  | [] => []
  | v :: vs => tokens v :: itemTokens vs

def memberTokens : List (String × Value) → List (List Token)
  | [] => []
  | (key, v) :: ms => (.text (some key) :: .colon :: tokens v) :: memberTokens ms

end

mutual

theorem tokens_asTree : ∀ v : Value, v.asTree.tokens = v.tokens
  | null | bool _ | number _ | text _ => rfl
  | array items => congrArg (encloseTokens .openBracket .closeBracket) (itemTokens_itemTrees items)
  | object members => congrArg (encloseTokens .openBrace .closeBrace) (memberTokens_memberTrees members)

theorem itemTokens_itemTrees : ∀ vs, Tree.itemTokens (itemTrees vs) = itemTokens vs
  | [] => rfl
  | v :: vs => by rw [itemTrees, Tree.itemTokens, itemTokens, tokens_asTree v, itemTokens_itemTrees vs]

theorem memberTokens_memberTrees : ∀ ms, Tree.memberTokens (memberTrees ms) = memberTokens ms
  | [] => rfl
  | (key, v) :: ms => by
    rw [memberTrees, Tree.memberTokens, memberTokens, tokens_asTree v, memberTokens_memberTrees ms]

end

theorem itemTrees_eq (vs : List Value) : itemTrees vs = vs.map asTree := by
  induction vs
  case nil => rfl
  case cons v vs ih => rw [itemTrees, ih, List.map_cons]

theorem spaced_write (spaced : l.Spaced) (v : Value) : Spaced v.asTree.Writes (v.write l 0) :=
  spaced_self (writes_write spaced 0 v)

theorem scan_render (spaced : l.Spaced) (v : Value) : scan (v.render l).toList = v.tokens := by
  rw [render, String.toList_ofList, ← tokens_asTree]
  exact Tree.scan_of_writes (v.spaced_write spaced)

end Value

end ClassLift.Json
