/-!
Blanks: the characters with the Unicode property `White_Space`, and trimming by them.
-/

namespace ClassLift.Text

def blankRanges : List (Nat × Nat) := [
    (0x9, 0xd), (0x20, 0x20), (0x85, 0x85), (0xa0, 0xa0), (0x1680, 0x1680), (0x2000, 0x200a),
    (0x2028, 0x2029), (0x202f, 0x202f), (0x205f, 0x205f), (0x3000, 0x3000)]

def isBlank (c : Char) : Bool :=
  blankRanges.any fun (low, high) => low ≤ c.toNat && c.toNat ≤ high

theorem isBlank_of_isWhitespace {c : Char} (h : c.isWhitespace) : isBlank c := by
  simp [Char.isWhitespace] at h
  obtain ((rfl | rfl) | rfl) | rfl := h <;> decide

def trimStart (s : List Char) : List Char :=
  s.dropWhile isBlank

def trimEnd (s : List Char) : List Char :=
  (trimStart s.reverse).reverse

def trim (s : List Char) : List Char :=
  trimEnd (trimStart s)

-- A switch or a level is compared without regard to case. All words it is compared with are ASCII,
-- and no other character has one of their letters as its lower case.
def lower (s : List Char) : List Char :=
  s.map Char.toLower

end ClassLift.Text
