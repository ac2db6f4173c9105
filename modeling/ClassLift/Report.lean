import ClassLift.Convert.Finding

/-!
Findings as lines of a report: `file(start) - error PC9001: text`, plain or in colour.
-/

namespace ClassLift.Report

def escape (codes : String) : String :=
  "\x1b[" ++ codes ++ "m"

def reset : String := escape "0"

-- Where the text itself ends a style, the style goes on after it.
def paint (codes text : String) : String :=
  let inner := Text.replaceAll reset.toList (reset ++ escape codes).toList text.toList
  escape codes ++ String.ofList inner ++ reset

def style (color : Bool) (codes text : String) : String :=
  if color then paint codes text else text

def location (d : Diagnostic) : String :=
  (if d.file = "" then "<unknown>" else d.file) ++ "(" ++ toString d.start ++ ")"

def line (color : Bool) (d : Diagnostic) : String :=
  style color "36" (location d) ++ " - " ++ style color "1;31" d.category.label ++
    (if d.code = 0 then "" else " " ++ style color "94" ("PC" ++ toString d.code)) ++
    ": " ++ d.text

def render (color : Bool) (findings : List Finding) : String :=
  String.intercalate "\n" (findings.map fun finding => line color finding.diagnostic)

end ClassLift.Report
