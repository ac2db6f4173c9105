import ClassLift.Json.Token

/-!
JSON values as they are written: their text in two layouts, and the tokens that the text consists of.
-/

namespace ClassLift.Json

inductive Value
  | null
  | bool (value : Bool)
  | number (value : Nat)
  | text (value : String)
  | array (items : List Value)
  | object (members : List (String × Value))
  deriving Repr

-- Characters below a blank have no other written form than an escape.
def escapeChar (c : Char) : List Char :=
  match c with
  | '"' => ['\\', '"']
  | '\\' => ['\\', '\\']
  | '\x08' => ['\\', 'b']
  | '\x0c' => ['\\', 'f']
  | '\n' => ['\\', 'n']
  | '\r' => ['\\', 'r']
  | '\t' => ['\\', 't']
  | c =>
    if c.toNat < 0x20 then
      ['\\', 'u', '0', '0', Nat.digitChar (c.toNat / 16), Nat.digitChar (c.toNat % 16)]
    else
      [c]

def quote (s : String) : List Char :=
  '"' :: s.toList.flatMap escapeChar ++ ['"']

structure Layout where
  newline : Nat → List Char
  colon : List Char

namespace Layout

def compact : Layout where
  newline _ := []
  colon := [':']

def pretty : Layout where
  newline depth := '\n' :: List.replicate (2 * depth) ' '
  colon := [':', ' ']

def enclose (l : Layout) (depth : Nat) (first last : Char) : List (List Char) → List Char
  | [] => [first, last]
  | parts =>
    let gap := l.newline (depth + 1)
    first :: gap ++ List.intercalate (',' :: gap) parts ++ l.newline depth ++ [last]

end Layout

namespace Value

mutual

def write (l : Layout) (depth : Nat) : Value → List Char
  | null => ['n', 'u', 'l', 'l']
  | bool true => ['t', 'r', 'u', 'e']
  | bool false => ['f', 'a', 'l', 's', 'e']
  | number n => Nat.toDigits 10 n
  | text s => quote s
  | array items => l.enclose depth '[' ']' (writeItems l (depth + 1) items)
  | object members => l.enclose depth '{' '}' (writeMembers l (depth + 1) members)

def writeItems (l : Layout) (depth : Nat) : List Value → List (List Char)
  | [] => []
  | v :: vs => write l depth v :: writeItems l depth vs

def writeMembers (l : Layout) (depth : Nat) : List (String × Value) → List (List Char)
  | [] => []
  | (key, v) :: ms => (quote key ++ l.colon ++ write l depth v) :: writeMembers l depth ms

end

def render (l : Layout) (v : Value) : String :=
  String.ofList (v.write l 0)

def ofOption (f : α → Value) : Option α → Value
  | none => null
  | some a => f a

end Value

end ClassLift.Json
