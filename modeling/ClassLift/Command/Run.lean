import ClassLift.Command.Arguments
import ClassLift.Command.Folder
import ClassLift.Convert.Pass
import ClassLift.Report
import ClassLift.Tree.Document
import ClassLift.Tree.Dump

/-!
One run of the command: read the options and the document, convert it, write it, and report.
-/

namespace ClassLift

-- What ends a run.
inductive Fatal
  | readConfig (path : String) (e : FileError)
  | parseConfig (path : String) (e : OptionsError)
  | readDocument (path : String) (e : FileError)
  | parseDocument (path : String) (e : TreeError)
  | convert (path : String) (e : ConversionError)
  | writeOutput (path : String) (e : FileError)
  deriving DecidableEq, Repr

def Fatal.message : Fatal → String
  | readConfig path e => "failed to read config: " ++ path ++ ": " ++ e.message
  | parseConfig path _ => "failed to parse config: " ++ path
  | readDocument path e => "failed to read AST document: " ++ path ++ ": " ++ e.message
  | parseDocument path e => "failed to parse AST document: " ++ path ++ ": " ++ e.message
  | convert path e => "class conversion aborted: " ++ path ++ ": " ++ e.message
  | writeOutput path e => "failed to write output: " ++ path ++ ": " ++ e.message

-- One line for each script of a document.
def Document.trees (d : Document) : String :=
  let scripts :=
    if d.forest.isKind d.root .script then
      [d.root]
    else
      (d.forest.children d.root).filter (d.forest.isKind · .script)
  String.intercalate "\n" (scripts.map d.forest.dump)

structure Converted where
  document : Document
  summary : Summary

namespace Command

variable {m : Type → Type} [Monad m]

def readOptions (disk : Disk m) (args : Arguments) : ExceptT Fatal m Options := do
  let options ←
    match args.config with
    | none => pure {}
    | some path =>
      match ← disk.read path with
      | .error e => throw (.readConfig path e)
      | .ok text => .mk (pure ((Options.ofText text).mapError (.parseConfig path)))
  -- The command line wins over the file.
  return if args.noStaticMerge then { options with mergeStaticMethods := false } else options

def readDocument (disk : Disk m) (path : String) : ExceptT Fatal m Document := do
  match ← disk.read path with
  | .error e => throw (.readDocument path e)
  | .ok text => .mk (pure ((Document.ofText text).mapError (.parseDocument path)))

def convert (disk : Disk m) (args : Arguments) : ExceptT Fatal m Converted := do
  let options ← readOptions disk args
  let document ← readDocument disk args.input
  match document.forest.convert options document.root with
  | (.error e, _) => throw (.convert args.input e)
  | (.ok summary, forest) => return { document := { document with forest }, summary }

-- Gives the text of the document if there is no file to write it to.
def write (disk : Disk m) (args : Arguments) (document : Document) :
    ExceptT Fatal m (Option String) := do
  let text := document.toText (if args.pretty then .pretty else .compact)
  match args.output with
  | none => return some text
  | some path =>
    match ← disk.write path text with
    | .error e => throw (.writeOutput path e)
    | .ok () => return none

structure Printed where
  status : Nat
  out : String := ""
  err : String := ""
  deriving DecidableEq, Repr

def fatalStatus : Nat := 2

def findingsStatus : Nat := 1

def version : String := "protoclass 0.1.0"

def help : String :=
  "Convert prototype-based constructors and method assignments into class declarations

Usage: protoclass [OPTIONS] <INPUT>

Arguments:
  <INPUT>  AST document (JSON) to convert

Options:
  -o, --output <OUTPUT>  Write the converted document here instead of stdout
      --config <CONFIG>  Conversion options file (JSON)
      --pretty           Pretty-print the output document
      --no-static-merge  Leave static method assignments (`A.create = function() \x7b\x7d`) in place
      --dump-tree        Print each converted script as an S-expression on stderr
  -h, --help             Print help
  -V, --version          Print version"

def failed (before : String) (e : Fatal) : Printed where
  status := fatalStatus
  err := before ++ "error: " ++ e.message ++ "\n"

def run (disk : Disk m) (args : Arguments) : m Printed := do
  match ← (convert disk args).run with
  | .error e => return failed "" e
  | .ok ⟨document, summary⟩ =>
    let trees := if args.dumpTree then document.trees ++ "\n" else ""
    match ← (write disk args document).run with
    | .error e => return failed trees e
    | .ok text =>
      let out := text.elim "" (· ++ "\n")
      if summary.findings.isEmpty then
        return { status := 0, out, err := trees }
      else
        let report := Report.render false summary.findings
        return { status := findingsStatus, out, err := trees ++ report ++ "\n" }

def complaint : ArgumentError → String
  | .missingInput => "the input is missing"
  | .unknown => "there is no such argument"
  | .invalidValue => "a value is missing or empty"
  | .repeated => "an option is given twice"
  | .tooManyValues => "an option takes no value"
  | .helpWanted | .versionWanted => ""

def execute (disk : Disk m) (arguments : List String) : m Printed :=
  match Arguments.read arguments with
  | .ok args => run disk args
  | .error .helpWanted => return { status := 0, out := help ++ "\n" }
  | .error .versionWanted => return { status := 0, out := version ++ "\n" }
  | .error e => return { status := fatalStatus, err := "error: " ++ complaint e ++ "\n" }

end Command

end ClassLift
