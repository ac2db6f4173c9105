import ClassLift.Json.Reader
import ClassLift.Text.WhiteSpace

/-!
Flags of a node, and their text: the names of the flags that are set, and in hexadecimal whatever
bits have no name.
-/

namespace ClassLift

structure Flags where
  bits : UInt16 := 0
  deriving DecidableEq, Repr

namespace Flags

def static : Flags := ⟨0x1⟩

-- Made by a conversion, not read from a source.
def synthesized : Flags := ⟨0x2⟩

def named : List (String × Flags) :=
  [("STATIC", static), ("SYNTHESIZED", synthesized)]

def contains (f g : Flags) : Bool :=
  f.bits &&& g.bits == g.bits

def union (f g : Flags) : Flags :=
  ⟨f.bits ||| g.bits⟩

theorem empty_union (f : Flags) : ({} : Flags).union f = f := by
  simp [union]

def ofName? (name : List Char) : Option Flags :=
  (named.find? (·.1.toList == name)).map (·.2)

/- Reading -/

def hex? (digits : List Char) : Option Nat :=
  if digits.isEmpty then
    none
  else
    digits.foldlM (fun n c => (16 * n + ·) <$> Json.hexValue? c) 0

def ofHex? (digits : List Char) : Option Flags :=
  (hex? digits).bind fun n => if n < UInt16.size then some ⟨n.toUInt16⟩ else none

def part? : List Char → Option Flags
  | '0' :: 'x' :: '+' :: digits => ofHex? digits
  | '0' :: 'x' :: digits => ofHex? digits
  | name => ofName? name

-- A blank text has no flags. Otherwise every part between bars names some.
def ofText? (s : List Char) : Option Flags :=
  if (Text.trim s).isEmpty then
    some {}
  else
    (s.splitOn '|').foldlM (fun f part => f.union <$> part? (Text.trim part)) {}

def reader : Json.Reader Flags :=
  Json.Reader.text.mapExcept fun s =>
    match ofText? s.toList with
    | some f => .ok f
    | none => .error .malformed

/- Writing -/

-- The names of the flags that are set, and the bits that have none.
def names (f : Flags) : List String :=
  (named.filter fun (_, g) => f.contains g).map (·.1)

def rest (f : Flags) : UInt16 :=
  f.bits &&& ~~~(static.union synthesized).bits

def hex (bits : UInt16) : String :=
  String.ofList ('0' :: 'x' :: Nat.toDigits 16 bits.toNat)

def toText (f : Flags) : String :=
  let extra := if f.rest == 0 then [] else [hex f.rest]
  String.intercalate " | " (f.names ++ extra)

end Flags

end ClassLift
