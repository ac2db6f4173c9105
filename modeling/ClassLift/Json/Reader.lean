import ClassLift.Json.Token

/-!
Typed readers of JSON tokens. A reader takes the tokens of one value and hands on the rest, which is
shorter; lists and records are read by recursion on that length. The first fault in the order of the
tokens is the one that counts.
-/

namespace ClassLift.Json

inductive Fault
  -- Not JSON, or not JSON of the expected shape.
  | malformed
  -- A text that the reader of a value refuses.
  | refused (text : String)
  deriving DecidableEq, Repr

structure Reader (α : Type) where
  run : List Token → Except Fault (α × List Token)
  shrinks : ∀ {ts a rest}, run ts = .ok (a, rest) → rest.length < ts.length

namespace Reader

-- A value of a single token.
def single (f : Token → Except Fault α) : Reader α where
  run
    | [] => .error .malformed
    | t :: ts => (f t).map (·, ts)
  shrinks {ts a rest} h := by
    match ts with
    | [] => simp at h
    | t :: ts =>
      cases ht : f t <;> simp [ht, Except.map] at h
      simp [← h.2]

def mapExcept (f : α → Except Fault β) (r : Reader α) : Reader β where
  run ts :=
    match r.run ts with
    | .ok (a, rest) => (f a).map (·, rest)
    | .error e => .error e
  shrinks {ts b rest} h := by
    split at h
    case h_1 a rest' hr =>
      cases hf : f a <;> simp [hf, Except.map] at h
      exact h.2 ▸ r.shrinks hr
    case h_2 => simp at h

def map (f : α → β) (r : Reader α) : Reader β :=
  r.mapExcept (.ok <| f ·)

def bool : Reader Bool := single fun
  | .bool b => .ok b
  | _ => .error .malformed

def text : Reader String := single fun
  | .text (some s) => .ok s
  | _ => .error .malformed

-- A number that fits 32 bits.
def word : Reader UInt32 := single fun
  | .number (some n) => if n < UInt32.size then .ok n.toUInt32 else .error .malformed
  | _ => .error .malformed

def orNull (r : Reader α) : Reader (Option α) where
  run
    | .null :: ts => .ok (none, ts)
    | ts => (r.run ts).map fun (a, rest) => (some a, rest)
  shrinks {ts a rest} h := by
    split at h
    case h_1 => simp_all
    case h_2 =>
      simp only [Except.map] at h
      split at h
      case h_1 => simp at h
      case h_2 hr =>
        simp at h
        exact h.2 ▸ r.shrinks hr

-- A text, or an object whose only member has that text as its key and `null` as its value.
def tag : Reader String where
  run
    | .text (some s) :: ts => .ok (s, ts)
    | .openBrace :: .text (some s) :: .colon :: .null :: .closeBrace :: ts => .ok (s, ts)
    | _ => .error .malformed
  shrinks h := by
    split at h <;> simp at h <;> simp only [← h.2, List.length_cons] <;> omega

/- A value that nobody asks for. -/

inductive Bracket
  | array
  | object
  deriving DecidableEq, Repr

-- Whether a value comes next, or what may follow one.
inductive Position
  | value
  | after
  deriving DecidableEq, Repr

-- Passes over a value and whatever closes the brackets around it.
def skipWithin : Position → List Bracket → List Token → Except Fault (List Token)
  | .after, [], ts => .ok ts
  | .after, .array :: outer, .comma :: ts => skipWithin .value (.array :: outer) ts
  | .after, .array :: outer, .closeBracket :: ts => skipWithin .after outer ts
  | .after, .object :: outer, .comma :: .text _ :: .colon :: ts =>
    skipWithin .value (.object :: outer) ts
  | .after, .object :: outer, .closeBrace :: ts => skipWithin .after outer ts
  | .value, outer, .openBracket :: .closeBracket :: ts => skipWithin .after outer ts
  | .value, outer, .openBracket :: ts => skipWithin .value (.array :: outer) ts
  | .value, outer, .openBrace :: .closeBrace :: ts => skipWithin .after outer ts
  | .value, outer, .openBrace :: .text _ :: .colon :: ts => skipWithin .value (.object :: outer) ts
  | .value, outer, .null :: ts => skipWithin .after outer ts
  | .value, outer, .bool _ :: ts => skipWithin .after outer ts
  | .value, outer, .number _ :: ts => skipWithin .after outer ts
  | .value, outer, .text _ :: ts => skipWithin .after outer ts
  | _, _, _ => .error .malformed

theorem skipWithin_length (h : skipWithin p outer ts = .ok rest) :
    rest.length + (if p = .value then 1 else 0) ≤ ts.length := by
  fun_induction skipWithin p outer ts
  case case14 => simp at h
  all_goals simp_all
  all_goals omega

def skip : Reader Unit where
  run ts := (skipWithin .value [] ts).map ((), ·)
  shrinks {ts a rest} h := by
    cases hs : skipWithin .value [] ts <;> simp [hs, Except.map] at h
    subst h
    have := skipWithin_length hs
    simp only [if_true] at this
    omega

/- Lists -/

-- The items in front come last item first.
def items (r : Reader α) (front : List α) (ts : List Token) : Except Fault (List α × List Token) :=
  match h : r.run ts with
  | .ok (a, .comma :: rest) =>
    have := r.shrinks h
    items r (a :: front) rest
  | .ok (a, .closeBracket :: rest) => .ok ((a :: front).reverse, rest)
  | .ok _ => .error .malformed
  | .error e => .error e
termination_by ts.length
decreasing_by simp_all; omega

theorem items_length {r : Reader α} (h : items r front ts = .ok (as, rest)) :
    rest.length < ts.length := by
  fun_induction items r front ts
  case case1 hr _ ih =>
    have := r.shrinks hr
    have := ih h
    simp_all
    omega
  case case2 hr =>
    have := r.shrinks hr
    simp_all
    omega
  all_goals simp at h

def list (r : Reader α) : Reader (List α) where
  run
    | .openBracket :: .closeBracket :: ts => .ok ([], ts)
    | .openBracket :: ts => items r [] ts
    | _ => .error .malformed
  shrinks h := by
    split at h
    case h_1 =>
      simp at h
      simp only [← h.2, List.length_cons]
      omega
    case h_2 =>
      have := items_length h
      simp
      omega
    case h_3 => simp at h

end Reader

/- Records -/

-- A member of a record that is read into a draft `σ`. A member may be given once only.
structure Member (σ : Type) where
  key : String
  isRead : σ → Bool
  reader : Reader (σ → σ)

def Member.of (key : String) (get : σ → Option β) (set : β → σ → σ) (reader : Reader β) :
    Member σ where
  key := key
  isRead s := (get s).isSome
  reader := reader.map set

-- What to do with a key that no member has.
inductive UnknownKey
  | skipped
  | refused
  deriving DecidableEq, Repr

namespace Reader

def member (ms : List (Member σ)) (unknown : UnknownKey) (s : σ) :
    List Token → Except Fault (σ × List Token)
  | .text (some key) :: ts =>
    match ms.find? (·.key == key) with
    | some m =>
      if m.isRead s then
        .error .malformed
      else
        match ts with
        | .colon :: ts => (m.reader.run ts).map fun (update, rest) => (update s, rest)
        | _ => .error .malformed
    | none =>
      match unknown, ts with
      | .skipped, .colon :: ts => (skip.run ts).map fun (_, rest) => (s, rest)
      | _, _ => .error .malformed
  | _ => .error .malformed

theorem member_length {ms : List (Member σ)} (h : member ms unknown s ts = .ok (s', rest)) :
    rest.length < ts.length := by
  fun_cases member ms unknown s ts
  case case2 m hm hn ts =>
    simp [member, hm, hn] at h
    cases hr : m.reader.run ts <;> simp [hr, Except.map] at h
    have := m.reader.shrinks hr
    simp only [← h.2, List.length_cons]
    omega
  case case4 hm ts =>
    simp [member, hm] at h
    cases hr : skip.run ts <;> simp [hr, Except.map] at h
    have := skip.shrinks hr
    simp only [← h.2, List.length_cons]
    omega
  case case5 hm hne =>
    simp [member, hm] at h
  all_goals simp_all [member]

def members (ms : List (Member σ)) (unknown : UnknownKey) (s : σ) (ts : List Token) :
    Except Fault (σ × List Token) :=
  match h : member ms unknown s ts with
  | .ok (s, .comma :: rest) =>
    have := member_length h
    members ms unknown s rest
  | .ok (s, .closeBrace :: rest) => .ok (s, rest)
  | .ok _ => .error .malformed
  | .error e => .error e
termination_by ts.length
decreasing_by simp_all; omega

theorem members_length {ms : List (Member σ)} (h : members ms unknown s ts = .ok (s', rest)) :
    rest.length < ts.length := by
  fun_induction members ms unknown s ts
  case case1 hm _ ih =>
    have := member_length hm
    have := ih h
    simp_all
    omega
  case case2 hm =>
    have := member_length hm
    simp_all
    omega
  all_goals simp at h

-- A record may also be an array of its members in their order, of which the last may be missing.
def inOrder : List (Member σ) → σ → List Token → Except Fault (σ × List Token)
  | [], _, _ => .error .malformed
  | m :: ms, s, ts =>
    match m.reader.run ts with
    | .ok (update, .comma :: rest) => inOrder ms (update s) rest
    | .ok (update, .closeBracket :: rest) => .ok (update s, rest)
    | .ok _ => .error .malformed
    | .error e => .error e

theorem inOrder_length {ms : List (Member σ)} (h : inOrder ms s ts = .ok (s', rest)) :
    rest.length < ts.length := by
  fun_induction inOrder ms s ts
  case case2 m _ _ _ _ _ hr ih =>
    have := m.reader.shrinks hr
    have := ih h
    simp_all
    omega
  case case3 m _ _ _ _ _ hr =>
    have := m.reader.shrinks hr
    simp_all
    omega
  all_goals simp at h

def draft (ms : List (Member σ)) (unknown : UnknownKey) (start : σ) : Reader σ where
  run
    | .openBrace :: .closeBrace :: ts => .ok (start, ts)
    | .openBrace :: ts => members ms unknown start ts
    | .openBracket :: .closeBracket :: ts => .ok (start, ts)
    | .openBracket :: ts => inOrder ms start ts
    | _ => .error .malformed
  shrinks h := by
    split at h
    case h_2 =>
      have := members_length h
      simp
      omega
    case h_4 =>
      have := inOrder_length h
      simp
      omega
    case h_5 => simp at h
    all_goals
      simp at h
      simp only [← h.2, List.length_cons]
      omega

-- A record is complete if `finish` finds all that it needs in the draft.
def record (ms : List (Member σ)) (unknown : UnknownKey) (start : σ) (finish : σ → Option α) :
    Reader α :=
  (draft ms unknown start).mapExcept fun s =>
    match finish s with
    | some a => .ok a
    | none => .error .malformed

-- Reads a text that holds one value and nothing else.
def read (r : Reader α) (text : String) : Except Fault α :=
  match r.run (scan text.toList) with
  | .ok (a, []) => .ok a
  | .ok _ => .error .malformed
  | .error e => .error e

end Reader

end ClassLift.Json
