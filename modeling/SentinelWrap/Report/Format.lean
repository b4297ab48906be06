import SentinelWrap.Report
import SentinelWrap.Report.JsonValue
import SentinelWrap.Report.Style
/-! The two ways reports are written out: lines of text, and JSON. -/
namespace SentinelWrap

inductive OutputFormat
  | json
  | text
deriving DecidableEq, Repr

/-- Case does not matter. -/
def OutputFormat.ofName? (name : String) : Option OutputFormat :=
  match name.toLower with
  | "json" => some json
  | "text" => some text
  | _ => none

structure TextLayout where
  color : Bool
  /-- Messages of the fixes stand below each finding. -/
  showFixes : Bool
deriving DecidableEq, Repr

namespace TextLayout

def fixLine (layout : TextLayout) (fix : Fix) : String :=
  "    " ++ Style.dim.paint layout.color fix.message

def diagnosticLines (layout : TextLayout) (report : Report) (found : Diagnostic) : List String :=
  let place := Style.location.paint layout.color (report.path.text ++ ":" ++ found.position.render)
  let status := if report.fixed then " " ++ Style.success.paint layout.color "(fixed)" else ""
  (place ++ ": " ++ found.message ++ status) ::
    if layout.showFixes then found.fixes.map layout.fixLine else []

def errorLines (layout : TextLayout) (report : Report) : List String :=
  match report.error with
  | some error =>
    [Style.location.paint layout.color report.path.text ++ ": " ++
      Style.error.paint layout.color error]
  | none => []

def reportLines (layout : TextLayout) (report : Report) : List String :=
  layout.errorLines report ++ report.diagnostics.flatMap (layout.diagnosticLines report)

/-- Counts of zero are left out, except for findings. -/
def summary (reports : List Report) : String :=
  let fixed := reports.countP (·.fixed)
  let failed := Report.failures reports
  s!"{reports.length} file(s) checked, {Report.findings reports} finding(s)" ++
    (if 0 < fixed then s!", {fixed} file(s) fixed" else "") ++
    (if 0 < failed then s!", {failed} file(s) failed" else "")

def lines (layout : TextLayout) (reports : List Report) : List String :=
  reports.flatMap layout.reportLines ++ [Style.dim.paint layout.color (summary reports)]

def render (layout : TextLayout) (reports : List Report) : String :=
  String.join ((layout.lines reports).map (· ++ "\n"))

end TextLayout

namespace JsonValue

def ofEdit (edit : Edit) : JsonValue :=
  .object [("start", .number edit.range.start), ("end", .number edit.range.stop),
    ("new_text", .string edit.newText)]

def ofFix (fix : Fix) : JsonValue :=
  .object [("message", .string fix.message), ("edits", .array (fix.edits.map ofEdit))]

def ofPosition (position : Position) : JsonValue :=
  .object [("offset", .number position.offset), ("line", .number position.line),
    ("column", .number position.column)]

def ofDiagnostic (found : Diagnostic) : JsonValue :=
  .object [("analyzer", .string found.analyzer), ("position", ofPosition found.position),
    ("message", .string found.message), ("suggested_fixes", .array (found.fixes.map ofFix))]

/-- The error and the mark of a fixed file stand only where there is one. -/
def ofReport (report : Report) : JsonValue :=
  .object ([("path", .string report.path.text),
      ("diagnostics", .array (report.diagnostics.map ofDiagnostic))] ++
    report.error.toList.map (fun error => ("error", .string error)) ++
    if report.fixed then [("fixed", .bool true)] else [])

end JsonValue

namespace Report

def renderJson (reports : List Report) : String :=
  (JsonValue.array (reports.map JsonValue.ofReport)).render 0 ++ "\n"

def renderAll (format : OutputFormat) (layout : TextLayout) (reports : List Report) : String :=
  match format with
  | .json => renderJson reports
  | .text => layout.render reports

end Report
end SentinelWrap
