import SentinelWrap.Proofs.Report.JsonReading
import SentinelWrap.Report.Format

/-! Reports read back from JSON. Fields are found by their names, and the two that may be left out have
the values that they are left out for. -/
namespace SentinelWrap

namespace JsonValue

def field? (name : String) : JsonValue → Option JsonValue
  | object fields => fields.lookup name
  | _ => none

def toNat? : JsonValue → Option Nat
  | number n => some n
  | _ => none

def toText? : JsonValue → Option String
  | string text => some text
  | _ => none

def toBool? : JsonValue → Option Bool
  | bool value => some value
  | _ => none

def toList? {α : Type} (item? : JsonValue → Option α) : JsonValue → Option (List α)
  | array items => items.mapM item?
  | _ => none

def toEdit? (value : JsonValue) : Option Edit := do
  let start ← (← value.field? "start").toNat?
  let stop ← (← value.field? "end").toNat?
  let newText ← (← value.field? "new_text").toText?
  return { range := ⟨start, stop⟩, newText }

def toFix? (value : JsonValue) : Option Fix := do
  let message ← (← value.field? "message").toText?
  let edits ← (← value.field? "edits").toList? toEdit?
  return { message, edits }

def toPosition? (value : JsonValue) : Option Position := do
  let offset ← (← value.field? "offset").toNat?
  let line ← (← value.field? "line").toNat?
  let column ← (← value.field? "column").toNat?
  return { offset, line, column }

def toDiagnostic? (value : JsonValue) : Option Diagnostic := do
  let analyzer ← (← value.field? "analyzer").toText?
  let position ← (← value.field? "position").toPosition?
  let message ← (← value.field? "message").toText?
  let fixes ← (← value.field? "suggested_fixes").toList? toFix?
  return { analyzer, position, message, fixes }

/-- Without a field for it there is no error, and the file was not fixed. -/
def toReport? (value : JsonValue) : Option Report := do
  let path ← (← value.field? "path").toText?
  let diagnostics ← (← value.field? "diagnostics").toList? toDiagnostic?
  let error ← match value.field? "error" with
    | some error => error.toText?.map some
    | none => some none
  let fixed ← match value.field? "fixed" with
    | some fixed => fixed.toBool?
    | none => some false
  return { path := ⟨path⟩, diagnostics, error, fixed }

theorem toList?_map {α : Type} {item? : JsonValue → Option α} {of : α → JsonValue}
    (h : ∀ a, item? (of a) = some a) (as : List α) : toList? item? (.array (as.map of)) = some as := by
  induction as with
  | nil => rfl
  | cons a as ih =>
    simp only [toList?] at ih ⊢
    simp [h, ih]

theorem toEdit?_ofEdit (edit : Edit) : toEdit? (ofEdit edit) = some edit := rfl

theorem toPosition?_ofPosition (position : Position) :
    toPosition? (ofPosition position) = some position := rfl

theorem toFix?_ofFix (fix : Fix) : toFix? (ofFix fix) = some fix := by
  simp [toFix?, ofFix, field?, List.lookup_cons, toText?, toList?_map toEdit?_ofEdit]

theorem toDiagnostic?_ofDiagnostic (found : Diagnostic) :
    toDiagnostic? (ofDiagnostic found) = some found := by
  simp [toDiagnostic?, ofDiagnostic, field?, List.lookup_cons, toText?, toList?_map toFix?_ofFix,
    toPosition?_ofPosition]

/-- The fields of a report that may be left out are told apart from each other. -/
theorem toReport?_ofReport (report : Report) : toReport? (ofReport report) = some report := by
  obtain ⟨⟨path⟩, diagnostics, error, fixed⟩ := report
  have hdiagnostics := toList?_map toDiagnostic?_ofDiagnostic diagnostics
  cases error <;> cases fixed <;>
    simp [toReport?, ofReport, field?, List.lookup_cons, toText?, toBool?, hdiagnostics]

end JsonValue

namespace Report

def readJson? (text : String) : Option (List Report) :=
  (JsonText.value? text).bind (JsonValue.toList? JsonValue.toReport?)

/-- What is written is one JSON value and a line break. Read back it gives the reports, so different
reports are written differently. -/
theorem readJson?_renderJson (reports : List Report) :
    (∃ text, renderJson reports = text ++ "\n" ∧
        JsonText.value? text = some (.array (reports.map JsonValue.ofReport))) ∧
      readJson? (renderJson reports) = some reports ∧
      ∀ others, renderJson others = renderJson reports → others = reports := by
  have hread (reports : List Report) : readJson? (renderJson reports) = some reports := by
    rw [readJson?, renderJson, JsonText.value?_render _ 0 rfl, Option.bind_some,
      JsonValue.toList?_map JsonValue.toReport?_ofReport]
  refine ⟨⟨_, rfl, ?_⟩, hread reports, fun others h => ?_⟩
  · simpa using @JsonText.value?_render (.array (reports.map JsonValue.ofReport)) 0 "" rfl
  · have hothers := hread others
    rw [h, hread reports] at hothers
    exact (Option.some.inj hothers).symm

end Report
end SentinelWrap
