import SentinelWrap.Syntax.Node
/-!
Sites: return statements directly in the body of an `if err != nil` whose last result is an error
sentinel. The match is by form alone, and returns deeper in the body are not looked at.
-/
namespace SentinelWrap.Wrapping

/-- The variable that holds the error at hand. -/
def errorVariable : String := "err"

/-- What the names of error sentinels begin with. -/
def sentinelMark : String := "Err"

/-- `err != nil`, in this order. -/
def isErrNotNil : Node → Bool
  | .comparison _ left .ne right =>
    left.identifier? == some errorVariable && right.isNil
  | _ => false

/-- The last name of an identifier or of a member access. -/
def lastName? : Node → Option String
  | .identifier _ name => some name
  | .memberAccess _ _ member => some member.name
  | _ => none

def isSentinel (name : String) : Bool := sentinelMark.toList.isPrefixOf name.toList

structure Site where
  /-- The span of the return statement. -/
  span : Option Span
  results : List Node
  /-- The last result, the value to wrap. -/
  value : Node
  sentinel : String

namespace Site

def statement (site : Site) : Node := .ret site.span site.results

/-- The site that a statement forms. -/
def ofNode? : Node → Option Site
  | .ret span results => do
    let value ← results.getLast?
    let sentinel ← lastName? value
    if isSentinel sentinel then some { span, results, value, sentinel } else none
  | _ => none

/-- The sites directly in a conditional. -/
def inConditional (condition : Node) (body : List Node) : List Site :=
  if isErrNotNil condition then body.filterMap ofNode? else []

end Site

/-- The sites directly in a node; only conditionals have any. -/
def sites : Node → List Site
  | .conditional _ _ condition body _ => Site.inConditional condition body
  | _ => []

end SentinelWrap.Wrapping
