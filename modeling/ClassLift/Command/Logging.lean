import ClassLift.Text.WhiteSpace

/-!
What is logged and how, as the environment asks for it.
-/

namespace ClassLift

inductive LogFormat
  | text
  | tree
  | json
  deriving DecidableEq, Repr

def LogFormat.name : LogFormat → String
  | text => "Text"
  | tree => "Tree"
  | json => "Json"

def LogFormat.ofText (written : String) : LogFormat :=
  let word := Text.lower (Text.trim written.toList)
  if word = "tree".toList then tree else if word = "json".toList then json else text

structure Logging where
  directives : String
  format : LogFormat
  deriving DecidableEq, Repr

namespace Logging

-- The parts of this program that log.
def targets : List String :=
  ["protoclass_cli", "protoclass_transforms", "protoclass_ast"]

def levelWords : List String :=
  ["off", "error", "warn", "info", "debug", "trace"]

-- A level may also be given by its place among the words.
def isLevelNumber (digits : List Char) : Bool :=
  !digits.isEmpty && digits.all (·.isDigit) &&
    digits.foldl (fun n c => 10 * n + (c.toNat - '0'.toNat)) 0 < levelWords.length

def isLevel (s : List Char) : Bool :=
  levelWords.any (·.toList == Text.lower s) ||
    match s with
    | '+' :: digits => isLevelNumber digits
    | digits => isLevelNumber digits

-- A bare level holds for this program only. All else is used as it is written.
def directive (written : String) : String :=
  let level := Text.trim written.toList
  if isLevel level then
    String.intercalate "," (targets.map (· ++ "=" ++ String.ofList level))
  else
    String.ofList level

-- The program's own variable wins over the general one. If neither is set, nothing is logged.
def ofVariables (own general format : Option String) : Option Logging := do
  let directives ← (own.map directive).or general
  return { directives, format := .ofText (format.getD "") }

end Logging

end ClassLift
