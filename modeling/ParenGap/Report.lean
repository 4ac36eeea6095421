import ParenGap.Json
import ParenGap.Lint

/-!
# Reports

What is found in a text is reported in lines for a reader or as a JSON array.
-/

set_option autoImplicit false

namespace ParenGap.Report

/-! ## Reports for a reader

A diagnostic is reported in three lines: what is wrong, where it is, and the type of node that it is
about. Lines and columns are counted from `1`, columns in characters. A fault takes a single line.

What is left out is the drawing between the second line and the third: the lines of the text around
the violations and references of the diagnostic, with the remarks of both below their places. A
library draws it from the text, the byte spans and the remarks; the spans and remarks are the
labels of the diagnostic (`Diagnostic.violations`, `Diagnostic.references`).
-/

open Text (Line)

/-- A text on a line of its own. -/
def onLine (text : String) : String := text ++ "\n"

/-- The lines on a diagnostic, without its place if it has none. -/
def plainDiagnostic? (file : String) (lines : Array Line) (d : Diagnostic) : Option String :=
  let head := onLine ("warning[" ++ d.rule.name ++ "]: " ++ d.message)
  let note := (d.nodeType?.map fun type => onLine ("  = in " ++ type)).getD ""
  match d.anchor? with
  | none => some (head ++ note ++ "\n")
  | some anchor =>
      (Position.charColumn? lines anchor.span.start).map fun column =>
        head ++
          onLine ("  ┌─ " ++ file ++ ":" ++ toString (anchor.first.row + 1) ++ ":" ++
            toString (column + 1)) ++
          note ++ "\n"

/-- The lines on a fault. -/
def plainFault (f : Fault) : String := onLine ("bug: " ++ f.message) ++ "\n"

/-- The report on what is found in a source: its diagnostics and then its faults. -/
def plain? (source : Source) (findings : Findings) : Option String :=
  (findings.diagnostics.mapM (plainDiagnostic? source.file source.lines)).map fun diagnostics =>
    String.join diagnostics ++ String.join (findings.faults.map plainFault)

/-- A text filled up with blanks on its right. -/
def padRight (size : Nat) (text : String) : String :=
  text ++ String.ofList (List.replicate (size - text.length) ' ')

/-- The line on a rule. -/
def plainRule (rule : Rule) : String :=
  onLine (padRight 20 rule.name ++ " " ++ padRight 8 (if rule.fixable then "fixable" else "") ++
    " " ++ rule.description)

/-- The list of rules. -/
def plainRules (rules : List Rule) : String := String.join (rules.map plainRule)

/-! ## The JSON report

Diagnostics are reported as a JSON array with an object for each. A diagnostic without a place is
left out. Lines and columns are counted from `1`, columns in characters.
-/

/-- An edit in the report. -/
def editJson (e : Edit) : Json :=
  .object
    [("rangeStart", .ofNat e.span.start),
     ("rangeEnd", .ofNat e.span.stop),
     ("replacementText", .string (String.ofList e.replacement))]

/-- A diagnostic in the report, given its place. -/
def recordJson (d : Diagnostic) (anchor : Region) (column : Nat) : Json :=
  .object <|
    [("rule", .string d.rule.name),
     ("messageKind", .string d.defect.id),
     ("nodeKind", (d.callKind.map fun kind => Json.string kind.name).getD .null),
     ("message", .string d.message),
     ("anchorOffset", .ofNat anchor.span.start),
     ("line", .ofNat (anchor.first.row + 1)),
     ("column", .ofNat (column + 1))] ++
    (d.edit.map fun e => ("fix", editJson e)).toList

/-- The diagnostics that have a place, in the report. There is no answer if a place does not lie in
the text with the given lines. -/
def recordsJson? (lines : Array Line) : List Diagnostic → Option (List Json)
  | [] => some []
  | d :: ds =>
      match d.anchor? with
      | none => recordsJson? lines ds
      | some anchor =>
          (Position.charColumn? lines anchor.span.start).bind fun column =>
            (recordsJson? lines ds).map fun rest => recordJson d anchor column :: rest

/-- The JSON report on a text with the given lines. -/
def json? (lines : Array Line) (diagnostics : List Diagnostic) : Option (List Char) :=
  (recordsJson? lines diagnostics).map fun records => (Json.array records).write 0 ++ ['\n']

end ParenGap.Report
