import SentinelWrap.Edit.Apply
import SentinelWrap.Text.Position
/-! Findings at a place of a source, with the edits that would mend them. -/
namespace SentinelWrap

structure Fix where
  message : String
  edits : List Edit
deriving DecidableEq, Repr

structure Diagnostic where
  /-- The name of the analysis that found it. -/
  analyzer : String
  position : Position
  message : String
  /-- The first one is the one that is applied. -/
  fixes : List Fix
deriving DecidableEq, Repr

namespace Diagnostic

/-- The edits of the first fix of every finding. -/
def edits (diagnostics : List Diagnostic) : List Edit :=
  (diagnostics.filterMap (·.fixes.head?)).flatMap (·.edits)

def applyFixes (text : String) (diagnostics : List Diagnostic) : Except Error String :=
  Edit.applyAll text (edits diagnostics)

end Diagnostic
end SentinelWrap
