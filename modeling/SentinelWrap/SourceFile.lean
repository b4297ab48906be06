import SentinelWrap.Error
import SentinelWrap.Go.Lowering
import SentinelWrap.Text.Position
/-! Source files: their languages, and how they are read. -/
namespace SentinelWrap

inductive Language
  | go
deriving DecidableEq, Repr

namespace Language

def name : Language → String
  | go => "Go"

def ofExtension? : String → Option Language
  | "go" => some go
  | _ => none

/-- Languages are told by the extension of the file. -/
def ofPath? (path : Path) : Option Language := path.extension?.bind ofExtension?

end Language

structure SourceFile where
  path : Path
  text : String
  root : Node

namespace SourceFile

def position (file : SourceFile) (offset : Nat) : Position :=
  (LineTable.ofText file.text.toList).position offset

def imports (file : SourceFile) : List ImportSpec :=
  match file.root with
  | .file _ _ imports _ => imports
  | _ => []

/-- A text of more than `limit` characters is cut and marked as cut. -/
def shortened (limit : Nat) (text : String) : String :=
  if limit < text.length then String.ofList (text.toList.take limit) ++ "..." else text

/-- Where a source cannot be read on, and the text that stands there. -/
def parseError (path : Path) (source : List Char) (fault : Go.Unexpected) : Error :=
  let point := Go.Point.ofOffset source fault.offset
  .parse path (point.row + 1) (point.column + 1)
    ("unexpected " ++ Text.quote (shortened 40 fault.text))

def parse (path : Path) (text : String) : Except Error SourceFile :=
  match Language.ofPath? path with
  | none => throw (.unsupported s!"no front end for {path.text}")
  | some .go =>
    match Go.parse text.toList with
    | .ok root => return ⟨path, text, root⟩
    | .error fault => throw (parseError path text.toList fault)

end SourceFile
end SentinelWrap
