import SentinelWrap.Syntax.Traversal
import SentinelWrap.Wrapping.Replacement
/-!
The analysis of one file: a finding for every site, in the order of a traversal, and after them one
for the import to add, if there was a site.
-/
namespace SentinelWrap.Wrapping

def analyzerDoc : String :=
  "check that new errors wrap context from existing errors in the call stack"

/-- The kinds of nodes the analysis hears of. -/
def filter : NodeFilter := .only [.file, .conditional]

structure State where
  /-- Some site was reported since the file node was visited. -/
  modified : Bool := false
  conflict : Bool := false
  found : List Diagnostic := []
  failure : Option Error := none

namespace State

/-- The bookkeeping of a file begins anew at its root. -/
def enter (imports : List ImportSpec) (state : State) : State :=
  { state with modified := false, conflict := hasConflict imports }

def addSite (file : SourceFile) (state : State) (site : Site) : State :=
  match siteDiagnostic? file (qualifier state.conflict) site with
  | some diagnostic => { state with modified := true, found := state.found ++ [diagnostic] }
  | none => state

/-- A later failure takes the place of an earlier one. -/
def exit (file : SourceFile) (decls : List Node) (state : State) : State :=
  if state.modified then
    match importDiagnostic file decls state.conflict with
    | .ok diagnostic => { state with found := state.found ++ [diagnostic] }
    | .error error => { state with failure := some error }
  else state

end State

def visitor (file : SourceFile) : Visitor State
  | .file _ _ imports _, .visit, state => (true, state.enter imports)
  | .file _ _ _ decls, .leave, state => (true, state.exit file decls)
  | node, .visit, state => (true, (sites node).foldl (State.addSite file) state)
  | _, .leave, state => (true, state)

/-- The findings in a file. If the library cannot be imported, none of them counts. -/
def analyze (file : SourceFile) : Except Error (List Diagnostic) :=
  let state := file.root.inspect filter (visitor file) {}
  match state.failure with
  | some error => throw error
  | none => return state.found

/-- Hands the findings in a file to a reporter, one after the other, and counts them. Of a file that
cannot be analyzed a reporter hears nothing. -/
def run {ρ : Type} (report : ρ → Diagnostic → ρ) (file : SourceFile) (reporter : ρ) :
    Except Error Nat × ρ :=
  match analyze file with
  | .error error => (.error error, reporter)
  | .ok found => (.ok found.length, found.foldl report reporter)

end SentinelWrap.Wrapping
