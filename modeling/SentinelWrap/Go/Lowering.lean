import SentinelWrap.Go.Grammar.Rules
import SentinelWrap.Go.Point
import SentinelWrap.Syntax.Node
/-! Syntax trees from concrete trees. -/
namespace SentinelWrap.Go

namespace Tree

def role : Tree → Role
  | token _ => .plain
  | node _ role _ => role

def kind : Tree → String
  | token t => t.text
  | node kind _ _ => kind

def children : Tree → List Tree
  | token _ => []
  | node _ _ children => children

/-- The text of a node that holds a single token. -/
def leafText : Tree → String
  | token t => t.text
  | node _ _ (token t :: _) => t.text
  | node .. => ""

/-- The texts of the tokens that stand directly in a node. -/
def signs : List Tree → List String
  | [] => []
  | token t :: ts => t.text :: signs ts
  | node .. :: ts => signs ts

end Tree

/-- The kinds of literals by the names of their grammar rules. -/
def literalKind? : String → Option LiteralKind
  | "nil" => some .nil
  | "true" | "false" => some .bool
  | "iota" => some .iota
  | "int_literal" => some .int
  | "float_literal" => some .float
  | "imaginary_literal" => some .imaginary
  | "rune_literal" => some .rune
  | "interpreted_string_literal" | "raw_string_literal" => some .string
  | _ => none

namespace Lowering

/-- The part of a conditional with a role. -/
def part? (role : Role) (parts : List (Role × Node)) : Option Node :=
  (parts.find? fun p => p.1 == role).map Prod.snd

def conditional? (span : Span) (parts : List (Role × Node)) : Option Node := do
  let condition ← part? .condition parts
  let body := ((part? .consequence parts).map Node.children).getD []
  return .conditional (some span) (part? .initializer parts) condition body
    (part? .alternative parts)

def memberAccess? (span : Span) : List Node → Option Node
  | [operand, .identifier memberSpan name] =>
    some (.memberAccess (some span) operand ⟨memberSpan, name⟩)
  | _ => none

def comparison? (span : Span) (signs : List String) : List Node → Option Node
  | [left, right] => do
    let op ← signs.findSome? Comparison.ofText?
    return .comparison (some span) left op right
  | _ => none

/-- The type arguments of a call, between callee and arguments, are dropped. -/
def call? (span : Span) (parts : List Node) : Option Node := do
  let callee ← parts.head?
  let arguments ← parts.tail.getLast?
  return .call (some span) callee arguments.children

/-- Builds a node of a kind from its concrete tree and its lowered parts. -/
def assemble (tree : Tree) (parts : List (Role × Node)) : Node :=
  let span := tree.span
  let nodes := parts.map Prod.snd
  let other := Node.other (some span) tree.kind nodes
  match tree.kind with
  | "if_statement" => (conditional? span parts).getD other
  | "return_statement" => .ret (some span) (nodes.flatMap Node.children)
  | "identifier" | "field_identifier" | "package_identifier" | "type_identifier" =>
    .identifier (some span) tree.leafText
  | "selector_expression" => (memberAccess? span nodes).getD other
  | "binary_expression" => (comparison? span (Tree.signs tree.children) nodes).getD other
  | "call_expression" => (call? span nodes).getD other
  | kind =>
    match literalKind? kind with
    | some kind => .literal (some span) kind tree.leafText
    | none => other

mutual

/-- The syntax tree of a concrete tree below the file. -/
def node : Tree → Node
  | .token t => assemble (.token t) []
  | .node kind role children => assemble (.node kind role children) (nodes children)

/-- The nodes among some trees, with their roles. -/
def nodes : List Tree → List (Role × Node)
  | [] => []
  | t :: ts => if t.isNode then (t.role, node t) :: nodes ts else nodes ts

end

/-- An import spec: its name if it has one, and its path last. Its line is the row where the reader
came to it, counted from one. -/
def importSpec (points : Nat → Point) (tree : Tree) : ImportSpec :=
  let parts := tree.children
  { span := some tree.span
    line := some ((points tree.start).row + 1)
    name := if 1 < parts.length then parts.head?.map Tree.leafText else none
    path := (parts.getLast?.map Tree.leafText).getD "" }

def importSpecs (points : Nat → Point) (trees : List Tree) : List ImportSpec :=
  (trees.filter (·.kind == "import_spec")).map (importSpec points)

/-- The specs of an import declaration, and whether they stand in parentheses. -/
def importGroup (points : Nat → Point) (tree : Tree) : Bool × List ImportSpec :=
  match tree.children.find? (·.kind == "import_spec_list") with
  | some group => (true, importSpecs points group.children)
  | none => (false, importSpecs points tree.children)

/-- What the declarations of a file add up to. -/
structure Declared where
  package : Option String := none
  imports : List ImportSpec := []
  decls : List Node := []

/-- The last package clause counts, and it is no declaration. -/
def declared (points : Nat → Point) : List Tree → Declared
  | [] => {}
  | tree :: trees =>
    let rest := declared points trees
    if !tree.isNode then rest
    else if tree.kind == "package_clause" then
      let name := (tree.children.find? Tree.isNode).map Tree.leafText
      { rest with package := rest.package <|> name }
    else if tree.kind == "import_declaration" then
      let (parenthesized, specs) := importGroup points tree
      { rest with
        imports := specs ++ rest.imports
        decls := .importGroup (some tree.span) parenthesized specs :: rest.decls }
    else { rest with decls := node tree :: rest.decls }

/-- The offset of the first character of a text that is not blank. -/
def firstOffset (source : List Char) : Nat :=
  let n := Token.markSize source
  Text.size (source.take (n + ((source.drop n).takeWhile Token.isBlank).length))

def file (source : List Char) (trees : List Tree) : Node :=
  let all := declared (Point.ofOffset source) trees
  .file (some ⟨firstOffset source, Text.size source⟩) all.package all.imports all.decls

end Lowering

/-- Reads a Go source: its syntax tree, or the first place where it goes wrong. -/
def parse (source : List Char) : Except Unexpected Node := do
  let tokens ← Token.list source
  match Tree.ofTokens? tokens with
  | some trees => return Lowering.file source trees
  | none => throw ⟨0, String.ofList (Token.restOfLine source)⟩

end SentinelWrap.Go
