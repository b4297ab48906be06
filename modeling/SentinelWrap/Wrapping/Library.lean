import SentinelWrap.Syntax.Node
/-! The library that wraps errors, and the name a file calls it by. -/
namespace SentinelWrap.Wrapping

/-- The import path of the library. -/
def library : String := "github.com/pkg/errors"

/-- The name of the library where it is imported without one. -/
def libraryName : String := "errors"

/-- The name it is given where another import may already use its own. -/
def libraryAlias : String := "errorsPkg"

/-- An import of something else whose path ends in the library's name. -/
def isRival (spec : ImportSpec) : Bool :=
  let path := spec.unquoted.toList
  libraryName.toList.isSuffixOf path && path != library.toList

def hasConflict (imports : List ImportSpec) : Bool := imports.any isRival

/-- The name the library's functions are called through. -/
def qualifier (conflict : Bool) : String := if conflict then libraryAlias else libraryName

/-- The import to add. -/
def librarySpec (conflict : Bool) : ImportSpec :=
  .new (if conflict then some libraryAlias else none) library

end SentinelWrap.Wrapping
