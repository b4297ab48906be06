import SentinelWrap.Go.Grammar
/-! The named rules of the Go grammar and the contexts that some of them depend on. -/
namespace SentinelWrap.Go

/-- What may come right after an expression, where that decides how it is read. -/
structure Follow where
  /-- A line break ends the statement. -/
  lineEnd : Bool := false
  /-- A brace opens a block, so a plain type name before it starts no composite literal. -/
  block : Bool := false
  /-- Nor does any other type name. -/
  noLiteral : Bool := false
  /-- `++`, `--` and `<-` make a statement of the expression, so they are not cut in two. -/
  step : Bool := false
  /-- `.(type)` belongs to the enclosing switch. -/
  typeSwitch : Bool := false
deriving DecidableEq, Repr

/-- What follows inside brackets. -/
def Follow.inside : Follow := {}

inductive Symbol
  | source
  | topLevel
  | importDeclaration
  | importSpec
  | constSpec
  | varSpec
  | typeSpec
  | typeParameters
  | parameters
  | parameter
  /-- The result of a function; a line break may end it. -/
  | result (lineEnd : Bool)
  | fieldList
  | field
  | interfaceElement
  /-- Types; a line break may end one. -/
  | type (lineEnd : Bool)
  | simpleType (lineEnd : Bool)
  | namedType (lineEnd : Bool)
  /-- In front of an operand: types that do not read as an expression. In plain ones the type
  arguments have no alternatives. -/
  | firmType (lineEnd plain : Bool)
  /-- In front of an operand: types that read as an expression just as well. -/
  | softType (lineEnd : Bool)
  | typeElement (lineEnd : Bool)
  | typeArguments
  /-- Type arguments without alternatives. -/
  | plainTypeArguments
  | block
  | statements
  | statement
  | returnStatement
  /-- A simple statement, by what follows its first expression and the later ones. -/
  | simple (first later : Follow)
  | conditional
  | loop
  | switch
  | typeSwitch
  | select
  | defaultCase
  | expressions (follow : Follow)
  | expression (follow : Follow)
  /-- Operands joined by operators that bind at least as tight as a level from 1 to 5. -/
  | binary (follow : Follow) (level : Nat)
  | unary (follow : Follow)
  | primary (follow : Follow)
  | operand (follow : Follow)
  | suffix (follow : Follow)
  | arguments
  | literalValue
  | literalElement
deriving DecidableEq, Repr

end SentinelWrap.Go
