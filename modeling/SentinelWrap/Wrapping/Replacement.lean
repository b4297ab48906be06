import SentinelWrap.Diagnostic
import SentinelWrap.SourceFile
import SentinelWrap.Syntax.Render
import SentinelWrap.Wrapping.Library
import SentinelWrap.Wrapping.Site
/-!
What replaces a site and the import declaration. Each replacement is a new node, printed, and takes
the place of the whole statement or declaration.
-/
namespace SentinelWrap.Wrapping

def analyzerName : String := "wrap_error"

/-- A call of `qualifier.function` without a place in a source. -/
def callOf (qualifier function : String) (args : List Node) : Node :=
  .call none (.memberAccess none (.identifier none qualifier) ⟨none, function⟩) args

/-- `qualifier.Wrap(value, err.Error())` -/
def wrapCall (qualifier : String) (value : Node) : Node :=
  callOf qualifier "Wrap" [value, callOf errorVariable "Error" []]

/-- Results with the last one wrapped. -/
def wrapLast (qualifier : String) : List Node → List Node
  | [] => []
  | [value] => [wrapCall qualifier value]
  | result :: results => result :: wrapLast qualifier results

/-- A return statement with its last result wrapped. -/
def wrappedReturn (qualifier : String) (span : Option Span) (results : List Node) : Node :=
  .ret span (wrapLast qualifier results)

/-- Nothing is reported for a statement without a place to replace. -/
def siteDiagnostic? (file : SourceFile) (qualifier : String) (site : Site) :
    Option Diagnostic := do
  let span ← site.span
  let source := file.text.toList
  let old := site.statement.render source
  let new := (wrappedReturn qualifier site.span site.results).render source
  return {
    analyzer := analyzerName
    position := file.position span.start
    message := s!"unwrapped error found '{old}'"
    fixes := [{
      message := s!"should replace '{old}' with '{new}'"
      edits := [⟨span, new⟩] }] }

structure ImportGroup where
  span : Option Span
  parenthesized : Bool
  specs : List ImportSpec

namespace ImportGroup

def ofNode? : Node → Option ImportGroup
  | .importGroup span parenthesized specs => some ⟨span, parenthesized, specs⟩
  | _ => none

def node (group : ImportGroup) : Node :=
  .importGroup group.span group.parenthesized group.specs

/-- The first import declaration among some declarations. -/
def first? (decls : List Node) : Option ImportGroup := decls.findSome? ofNode?

/-- The group with the library appended. -/
def extended (group : ImportGroup) (conflict : Bool) : ImportGroup :=
  { group with specs := group.specs ++ [librarySpec conflict] }

end ImportGroup

/-- The library is added to the first import declaration, and to no other. -/
def importDiagnostic (file : SourceFile) (decls : List Node) (conflict : Bool) :
    Except Error Diagnostic :=
  let target := do
    let group ← ImportGroup.first? decls
    let span ← group.span
    return (group, span)
  match target with
  | none => throw (.missingImport file.path library)
  | some (group, span) =>
    let message := "adding \"" ++ library ++ "\" import"
    let new := (group.extended conflict).node.render file.text.toList
    return {
      analyzer := analyzerName
      position := file.position span.start
      message
      fixes := [{ message, edits := [⟨span, new⟩] }] }

end SentinelWrap.Wrapping
