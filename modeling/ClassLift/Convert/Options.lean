import ClassLift.Json.Reader
import ClassLift.Text.WhiteSpace

/-!
Options of a conversion, and how they are read from JSON.
-/

namespace ClassLift

structure Options where
  -- Functions assigned to a class itself become static members.
  mergeStaticMethods : Bool := true
  -- A member of a class that is not found is reported.
  reportUnknownClasses : Bool := true
  deriving DecidableEq, Repr

inductive OptionsError
  | malformed
  | invalidSwitch (written : String)
  deriving DecidableEq, Repr

namespace OptionsError

-- Text that is not JSON is refused in the words of the JSON reader, which are not kept.
def message? : OptionsError → Option String
  | malformed => none
  | invalidSwitch written =>
    some ("invalid boolean value: '" ++ written ++ "'. Expected true, false, 'true', or 'false'")

end OptionsError

namespace Options

open Json

def switchWords : List (String × Bool) := [
    ("true", true), ("1", true), ("yes", true), ("on", true),
    ("false", false), ("0", false), ("no", false), ("off", false)]

def switch? (written : String) : Option Bool :=
  let word := Text.lower (Text.trim written.toList)
  (switchWords.find? (·.1.toList == word)).map (·.2)

-- A switch is a boolean or a word for one.
def switchReader : Reader Bool := .single fun
  | .bool b => .ok b
  | .text (some written) =>
    match switch? written with
    | some b => .ok b
    | none => .error (.refused written)
  | _ => .error .malformed

structure Draft where
  mergeStaticMethods : Option Bool := none
  reportUnknownClasses : Option Bool := none

def jsonMembers : List (Member Draft) := [
    .of "mergeStaticMethods" (·.mergeStaticMethods)
      (fun a d => { d with mergeStaticMethods := some a }) switchReader,
    .of "reportUnknownClasses" (·.reportUnknownClasses)
      (fun a d => { d with reportUnknownClasses := some a }) switchReader]

def Draft.finish (d : Draft) : Option Options := some {
  mergeStaticMethods := d.mergeStaticMethods.getD true
  reportUnknownClasses := d.reportUnknownClasses.getD true }

def reader : Reader Options :=
  .record jsonMembers .refused {} Draft.finish

def ofText (text : String) : Except OptionsError Options :=
  match reader.read text with
  | .ok options => .ok options
  | .error .malformed => .error .malformed
  | .error (.refused written) => .error (.invalidSwitch written)

end Options

end ClassLift
