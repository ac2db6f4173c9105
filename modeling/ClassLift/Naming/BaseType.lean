import ClassLift.Text.Alphabetic
import ClassLift.Text.Numeric
import ClassLift.Text.WhiteSpace

/-!
Base types as documentation writes them: a dotted name, perhaps with braces around it, marks for
null before it and type arguments after it.
-/

namespace ClassLift.BaseType

def isLetter (c : Char) : Bool :=
  Text.isAlphabetic c || c == '_' || c == '$'

def isLetterOrNumeral (c : Char) : Bool :=
  isLetter c || Text.isNumeric c

def isIdentifier : List Char → Bool
  | [] => false
  | c :: s => isLetter c && s.all isLetterOrNumeral

def isDottedName (s : List Char) : Bool :=
  (s.splitOn '.').all isIdentifier

def isMark (c : Char) : Bool :=
  c == '!' || c == '?'

-- One pair of braces around the whole.
def withoutBraces (s : List Char) : List Char :=
  match s with
  | '{' :: inner => if inner.getLast? = some '}' then Text.trim inner.dropLast else s
  | _ => s

def withoutMarks (s : List Char) : List Char :=
  Text.trimStart (s.dropWhile isMark)

def withoutArguments (s : List Char) : List Char :=
  if '<' ∈ s then Text.trimEnd (s.takeWhile (· ≠ '<')) else s

-- The bare name, if there is one.
def normalize? (text : String) : Option String :=
  let name := withoutArguments (withoutMarks (withoutBraces (Text.trim text.toList)))
  if isDottedName name then some (String.ofList name) else none

end ClassLift.BaseType
