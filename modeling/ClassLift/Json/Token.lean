/-!
JSON text as a list of tokens. Scanning never fails: where the text stops being JSON, the tokens end
with a `fault`, so that a reader of the tokens meets the faults of a text in their order.
-/

namespace ClassLift.Json

inductive Token
  | openBrace
  | closeBrace
  | openBracket
  | closeBracket
  | comma
  | colon
  | null
  | bool (value : Bool)
  -- The value of a plain run of digits; nothing if there is a sign, a fraction or an exponent.
  | number (value : Option Nat)
  -- Nothing if one half of a surrogate pair stands alone.
  | text (value : Option String)
  | fault
  deriving DecidableEq, Repr

def isHighSurrogate (unit : Nat) : Bool := 0xd800 ≤ unit && unit < 0xdc00

def isLowSurrogate (unit : Nat) : Bool := 0xdc00 ≤ unit && unit < 0xe000

def isSurrogate (unit : Nat) : Bool := 0xd800 ≤ unit && unit < 0xe000

-- Characters from the units of a string, which come last unit first. A unit is a code point, or one
-- half of a surrogate pair if the string writes a character as two escapes.
def charsOfUnits (chars : List Char) : List Nat → Option (List Char)
  | [] => some chars
  | low :: high :: units =>
    if isLowSurrogate low && isHighSurrogate high then
      let point := 0x10000 + (high - 0xd800) * 0x400 + (low - 0xdc00)
      charsOfUnits (Char.ofNat point :: chars) units
    else if isSurrogate low then
      none
    else
      charsOfUnits (Char.ofNat low :: chars) (high :: units)
  | [unit] =>
    if isSurrogate unit then none else some (Char.ofNat unit :: chars)

-- The part of a number that was read last.
inductive NumberPart
  | sign
  | zero
  | digits
  | point
  | fraction
  | exponent
  | exponentSign
  | exponentDigits
  deriving DecidableEq, Repr

namespace NumberPart

def isComplete : NumberPart → Bool
  | zero | digits | fraction | exponentDigits => true
  | sign | point | exponent | exponentSign => false

def next? (c : Char) : NumberPart → Option NumberPart
  | sign => if c == '0' then some zero else if c.isDigit then some digits else none
  | zero => afterInteger c
  | digits => if c.isDigit then some digits else afterInteger c
  | point => if c.isDigit then some fraction else none
  | fraction =>
    if c.isDigit then some fraction else if c == 'e' || c == 'E' then some exponent else none
  | exponent =>
    if c.isDigit then some exponentDigits
    else if c == '+' || c == '-' then some exponentSign
    else none
  | exponentSign | exponentDigits => if c.isDigit then some exponentDigits else none
where
  afterInteger (c : Char) : Option NumberPart :=
    if c == '.' then some point else if c == 'e' || c == 'E' then some exponent else none

end NumberPart

def digitValue (c : Char) : Nat := c.toNat - '0'.toNat

def hexValue? (c : Char) : Option Nat :=
  if c.isDigit then some (digitValue c)
  else if 'a' ≤ c && c ≤ 'f' then some (c.toNat - 'a'.toNat + 10)
  else if 'A' ≤ c && c ≤ 'F' then some (c.toNat - 'A'.toNat + 10)
  else none

-- Where in the text the scanner is.
inductive Mode
  | between
  | word (left : List Char) (token : Token)
  | number (part : NumberPart) (value : Option Nat)
  | string (units : List Nat)
  | escape (units : List Nat)
  | hex (left code : Nat) (units : List Nat)
  | stopped
  deriving DecidableEq, Repr

-- The tokens come last token first.
structure Scanner where
  mode : Mode := .between
  tokens : List Token := []

namespace Scanner

def emit (s : Scanner) (t : Token) : Scanner where
  mode := .between
  tokens := t :: s.tokens

def stop (s : Scanner) : Scanner where
  mode := .stopped
  tokens := .fault :: s.tokens

def enter (s : Scanner) (mode : Mode) : Scanner :=
  { s with mode }

-- A character that does not belong to a token that was begun before it.
def start (s : Scanner) (c : Char) : Scanner :=
  match c with
  | ' ' | '\n' | '\t' | '\r' => s.enter .between
  | '{' => s.emit .openBrace
  | '}' => s.emit .closeBrace
  | '[' => s.emit .openBracket
  | ']' => s.emit .closeBracket
  | ',' => s.emit .comma
  | ':' => s.emit .colon
  | '"' => s.enter (.string [])
  | 'n' => s.enter (.word ['u', 'l', 'l'] .null)
  | 't' => s.enter (.word ['r', 'u', 'e'] (.bool true))
  | 'f' => s.enter (.word ['a', 'l', 's', 'e'] (.bool false))
  | '-' => s.enter (.number .sign none)
  | '0' => s.enter (.number .zero (some 0))
  | c => if c.isDigit then s.enter (.number .digits (some (digitValue c))) else s.stop

def stepWord (s : Scanner) (left : List Char) (token : Token) (c : Char) : Scanner :=
  match left with
  | [] => s.stop
  | [d] => if c == d then s.emit token else s.stop
  | d :: left => if c == d then s.enter (.word left token) else s.stop

def stepNumber (s : Scanner) (part : NumberPart) (value : Option Nat) (c : Char) : Scanner :=
  match part.next? c with
  | some .digits => s.enter (.number .digits (value.map (10 * · + digitValue c)))
  | some next => s.enter (.number next none)
  | none => if part.isComplete then (s.emit (.number value)).start c else s.stop

def stepString (s : Scanner) (units : List Nat) (c : Char) : Scanner :=
  if c == '"' then s.emit (.text ((charsOfUnits [] units).map String.ofList))
  else if c == '\\' then s.enter (.escape units)
  else if c.toNat < 0x20 then s.stop
  else s.enter (.string (c.toNat :: units))

def stepEscape (s : Scanner) (units : List Nat) (c : Char) : Scanner :=
  match c with
  | '"' | '\\' | '/' => s.enter (.string (c.toNat :: units))
  | 'b' => s.enter (.string (0x08 :: units))
  | 'f' => s.enter (.string (0x0c :: units))
  | 'n' => s.enter (.string (0x0a :: units))
  | 'r' => s.enter (.string (0x0d :: units))
  | 't' => s.enter (.string (0x09 :: units))
  | 'u' => s.enter (.hex 4 0 units)
  | _ => s.stop

def stepHex (s : Scanner) (left code : Nat) (units : List Nat) (c : Char) : Scanner :=
  match hexValue? c, left with
  | some digit, 0 | some digit, 1 => s.enter (.string ((16 * code + digit) :: units))
  | some digit, left + 1 => s.enter (.hex left (16 * code + digit) units)
  | none, _ => s.stop

def step (s : Scanner) (c : Char) : Scanner :=
  match s.mode with
  | .between => s.start c
  | .word left token => s.stepWord left token c
  | .number part value => s.stepNumber part value c
  | .string units => s.stepString units c
  | .escape units => s.stepEscape units c
  | .hex left code units => s.stepHex left code units c
  | .stopped => s

def finish (s : Scanner) : List Token :=
  match s.mode with
  | .between | .stopped => s.tokens.reverse
  | .number part value =>
    let last := if part.isComplete then Token.number value else .fault
    (last :: s.tokens).reverse
  | _ => (Token.fault :: s.tokens).reverse

end Scanner

def scan (text : List Char) : List Token :=
  (text.foldl Scanner.step {}).finish

end ClassLift.Json
