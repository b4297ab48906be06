import SentinelWrap.Diagnostic
/-! What checking a file, and checking many files, comes to. -/
namespace SentinelWrap

structure Report where
  path : Path
  diagnostics : List Diagnostic := []
  /-- Why the file could not be analyzed or fixed. -/
  error : Option String := none
  /-- The fixes were written to the file. -/
  fixed : Bool := false
deriving DecidableEq, Repr

namespace Report

def failed (path : Path) (error : Error) : Report := { path, error := some error.message }

def findings (reports : List Report) : Nat := (reports.flatMap (·.diagnostics)).length

def failures (reports : List Report) : Nat := reports.countP (·.error.isSome)

/-- 1 if some file failed, 3 if there are findings and they were not to be fixed, else 0. -/
def exitCode (fix : Bool) (reports : List Report) : Nat :=
  if 0 < failures reports then 1
  else if !fix && 0 < findings reports then 3
  else 0

end Report
end SentinelWrap
