import SentinelWrap.Text.Span
/-!
Syntax trees. What the analysis reasons about has a constructor of its own; every other construct
keeps its grammar kind, its span and its children. Nodes that were not read from a source have no
span.
-/
namespace SentinelWrap

inductive NodeKind
  | file
  | conditional
  | ret
  | importGroup
  | identifier
  | memberAccess
  | comparison
  | literal
  | call
  | other
deriving DecidableEq, Repr

inductive Comparison
  | eq
  | ne
  | lt
  | le
  | gt
  | ge
deriving DecidableEq, Repr

namespace Comparison

def text : Comparison → String
  | eq => "=="
  | ne => "!="
  | lt => "<"
  | le => "<="
  | gt => ">"
  | ge => ">="

def ofText? : String → Option Comparison
  | "==" => some eq
  | "!=" => some ne
  | "<" => some lt
  | "<=" => some le
  | ">" => some gt
  | ">=" => some ge
  | _ => none

end Comparison

inductive LiteralKind
  | nil
  | bool
  | iota
  | int
  | float
  | imaginary
  | rune
  | string
deriving DecidableEq, Repr

structure ImportSpec where
  span : Option Span
  /-- The line the spec was written on, from one. -/
  line : Option Nat
  name : Option String
  /-- The path as written, quotes included. -/
  path : String
deriving DecidableEq, Repr

namespace ImportSpec

/-- A spec that stands in no source. -/
def new (name : Option String) (path : String) : ImportSpec where
  span := none
  line := none
  name := name
  path := "\"" ++ path ++ "\""

def isQuote (c : Char) : Bool := c == '"' || c == '\x60'

/-- The path without the quotes around it. -/
def unquoted (spec : ImportSpec) : String :=
  String.ofList ((spec.path.toList.dropWhile isQuote).reverse.dropWhile isQuote).reverse

end ImportSpec

/-- The part of a member access after the dot. -/
structure Member where
  span : Option Span
  name : String
deriving DecidableEq, Repr

inductive Node
  | file (span : Option Span) (package : Option String) (imports : List ImportSpec)
      (decls : List Node)
  | conditional (span : Option Span) (init : Option Node) (condition : Node) (body : List Node)
      (alternative : Option Node)
  | ret (span : Option Span) (results : List Node)
  | importGroup (span : Option Span) (parenthesized : Bool) (specs : List ImportSpec)
  | identifier (span : Option Span) (name : String)
  | memberAccess (span : Option Span) (operand : Node) (member : Member)
  | comparison (span : Option Span) (left : Node) (op : Comparison) (right : Node)
  | literal (span : Option Span) (kind : LiteralKind) (text : String)
  | call (span : Option Span) (callee : Node) (args : List Node)
  | other (span : Option Span) (kind : String) (children : List Node)
deriving Nonempty

namespace Node

def kind : Node → NodeKind
  | file .. => .file
  | conditional .. => .conditional
  | ret .. => .ret
  | importGroup .. => .importGroup
  | identifier .. => .identifier
  | memberAccess .. => .memberAccess
  | comparison .. => .comparison
  | literal .. => .literal
  | call .. => .call
  | other .. => .other

def span : Node → Option Span
  | file span .. | conditional span .. | ret span .. | importGroup span .. | identifier span ..
  | memberAccess span .. | comparison span .. | literal span .. | call span .. | other span .. =>
    span

/-- The direct children in source order. The member of an access is none of them. -/
def children : Node → List Node
  | file _ _ _ decls => decls
  | conditional _ init condition body alternative =>
    init.toList ++ condition :: body ++ alternative.toList
  | ret _ results => results
  | memberAccess _ operand _ => [operand]
  | comparison _ left _ right => [left, right]
  | call _ callee args => callee :: args
  | other _ _ children => children
  | importGroup .. | identifier .. | literal .. => []

def isNil : Node → Bool
  | literal _ .nil _ => true
  | _ => false

/-- The name of an identifier. -/
def identifier? : Node → Option String
  | identifier _ name => some name
  | _ => none

section Fold
variable {β : Type}

mutual

/-- Combines a node with the results of its children. -/
def fold (f : Node → List β → β) : Node → β
  | file span package imports decls => f (file span package imports decls) (foldAll f decls)
  | conditional span init condition body alternative =>
    f (conditional span init condition body alternative)
      (foldOption f init ++ fold f condition :: foldAll f body ++ foldOption f alternative)
  | ret span results => f (ret span results) (foldAll f results)
  | importGroup span parenthesized specs => f (importGroup span parenthesized specs) []
  | identifier span name => f (identifier span name) []
  | memberAccess span operand member => f (memberAccess span operand member) [fold f operand]
  | comparison span left op right =>
    f (comparison span left op right) [fold f left, fold f right]
  | literal span kind text => f (literal span kind text) []
  | call span callee args => f (call span callee args) (fold f callee :: foldAll f args)
  | other span kind children => f (other span kind children) (foldAll f children)

def foldAll (f : Node → List β → β) : List Node → List β
  | [] => []
  | n :: ns => fold f n :: foldAll f ns

def foldOption (f : Node → List β → β) : Option Node → List β
  | none => []
  | some n => [fold f n]

end

theorem foldAll_eq_map (f : Node → List β → β) (ns : List Node) :
    foldAll f ns = ns.map (fold f) := by
  induction ns with
  | nil => rfl
  | cons n ns ih => simp [foldAll, ih]

theorem foldOption_eq_map (f : Node → List β → β) (n : Option Node) :
    foldOption f n = n.toList.map (fold f) := by
  cases n <;> simp [foldOption]

/-- A fold sees its children through `children` alone. -/
theorem fold_eq (f : Node → List β → β) (n : Node) :
    fold f n = f n (n.children.map (fold f)) := by
  cases n <;> simp [fold, children, foldAll_eq_map, foldOption_eq_map]

end Fold
end Node
end SentinelWrap
