import SentinelWrap.Syntax.Node
/-!
Source text of syntax trees. Nodes with a span are printed as the text they cover, except for
returns and import groups, which are always laid out from their parts.
-/
namespace SentinelWrap

def ImportSpec.render (spec : ImportSpec) : String :=
  match spec.name with
  | some name => name ++ " " ++ spec.path
  | none => spec.path

namespace Node

/-- The number after a line, in 64 bits. -/
def nextLine (line : Nat) : Nat := (line + 1) % UInt64.size

/-- A gap of at least one line between two specs. -/
def isApart : Option Nat → Option Nat → Bool
  | some previous, some line => nextLine previous < line
  | _, _ => false

/-- The lines of a group; where the specs were written apart, one blank line separates them. -/
def renderSpecs (previous : Option Nat) : List ImportSpec → String
  | [] => ""
  | spec :: specs =>
    (if isApart previous spec.line then "\n" else "") ++ "\t" ++ spec.render ++ "\n" ++
      renderSpecs (spec.line <|> previous) specs

def renderImportGroup (parenthesized : Bool) (specs : List ImportSpec) : String :=
  match parenthesized, specs with
  | false, [spec] => "import " ++ spec.render
  | _, specs => "import (\n" ++ renderSpecs none specs ++ ")"

def commaSeparated (texts : List String) : String := ", ".intercalate texts

/-- The text of a node, given the texts of its children. -/
def renderStep (source : List Char) (node : Node) (children : List String) : String :=
  match node, children with
  | ret .., [] => "return"
  | ret .., results => "return " ++ commaSeparated results
  | importGroup _ parenthesized specs, _ => renderImportGroup parenthesized specs
  | node, children =>
    match node.span with
    | some span => String.ofList (span.slice source)
    | none =>
      match node, children with
      | identifier _ name, _ => name
      | literal _ _ text, _ => text
      | memberAccess _ _ member, [operand] => operand ++ "." ++ member.name
      | call .., callee :: args => callee ++ "(" ++ commaSeparated args ++ ")"
      | comparison _ _ op _, [left, right] => left ++ " " ++ op.text ++ " " ++ right
      | _, _ => ""

def render (source : List Char) : Node → String := fold (renderStep source)

end Node
end SentinelWrap
