import SentinelWrap.Path
import SentinelWrap.Text.Quoted
import SentinelWrap.Text.Span
/-! What can go wrong, and how it is worded. -/
namespace SentinelWrap

/-- Failures of the file system. -/
inductive IoError
  | notFound
  | isDirectory
  | notDirectory
  | notPermitted
  | invalidText
  | other (message : String)
deriving DecidableEq, Repr

def IoError.message : IoError → String
  | notFound => "No such file or directory (os error 2)"
  | isDirectory => "Is a directory (os error 21)"
  | notDirectory => "Not a directory (os error 20)"
  | notPermitted => "Permission denied (os error 13)"
  | invalidText => "stream did not contain valid UTF-8"
  | other message => message

inductive Error
  | fileSystem (message : String) (path : Option Path) (cause : Option IoError)
  | parse (path : Path) (line column : Nat) (message : String)
  /-- A library has to be imported, and no import declaration can take it. -/
  | missingImport (path : Path) (library : String)
  | overlappingEdits (first second : Span)
  | invalidEdit (range : Span) (size : Nat)
  | configuration (message : String)
  | unsupported (message : String)
  | io (cause : IoError)
  | walk (root : Path) (cause : IoError)
deriving DecidableEq, Repr

namespace Error

def message : Error → String
  | fileSystem message .. => s!"File system error: {message}"
  | parse path line column message =>
    s!"Parse error in {path.text}:{line}:{column}: {message}"
  | missingImport path library =>
    path.text ++ ": expected to find an import declaration to extend with " ++ Text.quote library
  | overlappingEdits a b =>
    s!"Overlapping edits at {a.start}..{a.stop} and {b.start}..{b.stop}"
  | invalidEdit range size =>
    s!"Invalid edit range {range.start}..{range.stop} for text of length {size}"
  | configuration message => s!"Configuration error: {message}"
  | unsupported message => s!"Unsupported: {message}"
  | io cause => cause.message
  | walk root cause => s!"{root.text}: IO error for operation on {root.text}: {cause.message}"

/-- Leaves one file unanalyzed and says nothing about the others. -/
def isPerFile : Error → Bool
  | fileSystem .. | parse .. | missingImport .. | unsupported .. => true
  | overlappingEdits .. | invalidEdit .. | configuration .. | io .. | walk .. => false

/-- The messages of an error and of what caused it, outermost first. -/
def chain : Error → List String
  | fileSystem message path (some cause) => [(fileSystem message path (some cause)).message, cause.message]
  | error => [error.message]

end Error
end SentinelWrap
