import SentinelWrap.Go.Grammar.Symbol
/-!
The grammar of Go.

It is wider than the language: statements may stand at the top level, a file may have any number of
package clauses, and lists may end in a comma. A line break ends a statement only where the grammar
can take one; everywhere else it is white space. So each rule that may go on after a complete
statement asks for its next token on the same line, and each rule that needs a further token does
not.
-/
namespace SentinelWrap.Go.Grammar
open Rule

abbrev GoRule := Rule Symbol

def word (text : String) : GoRule := token (.word text)

def sign (text : String) : GoRule := token (.sign text)

def comma : GoRule := sign ","

def named (kind : String) (reserved : List String) : GoRule := leaf kind (.name reserved)

/-- Words that are operands by themselves, and not names there. -/
def valueWords : List String := ["nil", "true", "false", "iota", "new", "make"]

/-- The next token stands on the same line, where a line break would end the statement. -/
def joined (lineEnd : Bool) : GoRule := if lineEnd then sameLine else empty

def terminator : GoRule := lineEnd ||| sign ";" ||| sign "\x00"

/-- `a` items, one to a line or split by semicolons. -/
def lines (a : GoRule) : GoRule :=
  opt (a ++ many (terminator ++ a) ++ opt terminator)

def parens (a : GoRule) : GoRule := sign "(" ++ a ++ sign ")"

/-- Specs in parentheses. The terminator of the last one may be missing, unless it is the only one
and short. -/
def group (a : GoRule) : GoRule :=
  parens (opt (a ++ terminator ++ lines a ||| longer 10 a))

def braces (a : GoRule) : GoRule := sign "\x7b" ++ a ++ sign "\x7d"

def string : GoRule :=
  leaf "interpreted_string_literal" (.kind .string) ||| leaf "raw_string_literal" (.kind .rawString)

def type (lineEnd : Bool) : GoRule := ref (.type lineEnd)

def expression (follow : Follow) : GoRule := ref (.expression follow)

/-- What follows an expression that a statement may end with. -/
def closing : Follow := { lineEnd := true }

/-- The terminator at the end of a file may be missing, unless the file is one short statement. -/
def source : GoRule :=
  let item := (ref .topLevel ||| ref .statement) ++ terminator
  let finish := token (.kind .finish)
  oneOf (many item ++ opt (ref .topLevel) ++ finish)
    [item ++ many item ++ ref .statement ++ finish, longer 9 (ref .statement) ++ finish]

def topLevel : GoRule :=
  let body := opt (sameLine ++ ref (.result true)) ++ opt (sameLine ++ ref .block)
  oneOf
    (node "package_clause" (word "package" ++ named "package_identifier" []))
    [node "function_declaration"
      (word "func" ++ named "identifier" [] ++ opt (ref .typeParameters) ++ ref .parameters ++ body),
     node "method_declaration"
      (word "func" ++ ref .parameters ++ named "field_identifier" [] ++ ref .parameters ++
        body),
     ref .importDeclaration]

def importDeclaration : GoRule :=
  node "import_declaration" (word "import" ++
    (ref .importSpec ||| node "import_spec_list" (parens (lines (ref .importSpec)))))

def importSpec : GoRule :=
  node "import_spec" (opt (oneOf (leaf "dot" (.sign "."))
    [leaf "blank_identifier" (.word "_"), named "package_identifier" []]) ++ string)

def constSpec : GoRule :=
  node "const_spec" (list (sameLine ++ comma) (named "identifier" []) ++
    opt (sameLine ++ opt (type false) ++ sign "=" ++ ref (.expressions closing)))

def varSpec : GoRule :=
  node "var_spec" (list comma (named "identifier" []) ++
    (type true ++ opt (sameLine ++ sign "=" ++ ref (.expressions closing)) |||
      sign "=" ++ ref (.expressions closing)))

/-- Brackets after the name hold the length of an array if they can, else type parameters. -/
def typeSpec : GoRule :=
  oneOf (node "type_alias" (named "type_identifier" [] ++ sign "=" ++ type true))
    [node "type_spec" (named "type_identifier" [] ++ type true),
     node "type_spec" (named "type_identifier" [] ++ ref .typeParameters ++ type true)]

def declarations : List GoRule := [
  node "const_declaration" (word "const" ++
    (ref .constSpec ||| group (ref .constSpec))),
  node "type_declaration" (word "type" ++
    (ref .typeSpec ||| group (ref .typeSpec))),
  node "var_declaration" (word "var" ++
    (ref .varSpec ||| node "var_spec_list" (group (ref .varSpec))))]

def typeParameters : GoRule :=
  let declaration := node "type_parameter_declaration"
    (list comma (named "identifier" []) ++
      node "type_constraint" (list (sign "|") (type false)))
  node "type_parameter_list" (sign "[" ++ list comma declaration ++ opt comma ++ sign "]")

def parameters : GoRule :=
  node "parameter_list" (parens (opt (list comma (ref .parameter)) ++ opt comma))

/-- Names before a type belong to one declaration; without such a type each name is a type. -/
def parameter : GoRule :=
  oneOf
    (node "parameter_declaration" (list comma (named "identifier" []) ++ type false))
    [node "variadic_parameter_declaration"
      (opt (named "identifier" []) ++ sign "..." ++ type false),
     node "parameter_declaration" (type false)]

def result (lineEnd : Bool) : GoRule := ref .parameters ||| ref (.simpleType lineEnd)

def fieldList : GoRule :=
  node "field_declaration_list" (braces (lines (ref .field)))

def field : GoRule :=
  let name := named "field_identifier" []
  node "field_declaration" (
    oneOf (name ++ sameLine ++ comma ++ list comma name ++ type true)
      [name ++ sameLine ++ type true,
       opt (sign "*") ++ ref (.namedType true)] ++
    opt (sameLine ++ string))

def interfaceElement : GoRule :=
  node "method_elem" (named "field_identifier" [] ++ sameLine ++ ref .parameters ++
    opt (sameLine ++ ref (.result true))) |||
  ref (.typeElement true)

def structType : GoRule := node "struct_type" (word "struct" ++ ref .fieldList)

def interfaceType : GoRule :=
  node "interface_type" (word "interface" ++ braces (lines (ref .interfaceElement)))

def arrayType (lineEnd : Bool) : GoRule :=
  node "array_type" (sign "[" ++ expression .inside ++ sign "]" ++ type lineEnd)

def sliceType (lineEnd : Bool) : GoRule :=
  node "slice_type" (sign "[" ++ sign "]" ++ type lineEnd)

def mapType (lineEnd : Bool) : GoRule :=
  node "map_type" (word "map" ++ sign "[" ++ type false ++ sign "]" ++ type lineEnd)

def channelType (lineEnd : Bool) : GoRule :=
  oneOf (node "channel_type" (sign "<-" ++ word "chan" ++ type lineEnd))
    [node "channel_type" (word "chan" ++ type lineEnd),
     node "channel_type" (word "chan" ++ sign "<-" ++ type lineEnd)]

/-- A parenthesis or bracket after the parameters begins the result. -/
def functionType (lineEnd : Bool) : GoRule :=
  let noResult := notAhead (.sign "(") ++ notAhead (.sign "[")
  node "function_type" (word "func" ++ ref .parameters ++
    (joined lineEnd ++ ref (.result lineEnd) |||
      if lineEnd then newLine ||| noResult else noResult))

def parenthesizedType : GoRule := node "parenthesized_type" (parens (type false))

def negatedType (lineEnd : Bool) : GoRule :=
  apart (node "negated_type" (sign "~" ++ parenthesizedType) ++ joined lineEnd ++
    grow "generic_type" (ref .typeArguments)) |||
  node "negated_type" (sign "~" ++ type lineEnd)

def simpleType (lineEnd : Bool) : GoRule :=
  oneOf (ref (.namedType lineEnd))
    [node "pointer_type" (sign "*" ++ type lineEnd),
     structType, interfaceType, sliceType lineEnd, arrayType lineEnd, mapType lineEnd,
     channelType lineEnd, functionType lineEnd, negatedType lineEnd]

def anyType (lineEnd : Bool) : GoRule :=
  parenthesizedType ||| ref (.simpleType lineEnd)

/-- A type name, perhaps of another package. -/
def typeName (lineEnd : Bool) : GoRule :=
  node "qualified_type" (named "package_identifier" [] ++ joined lineEnd ++ sign "." ++
    named "type_identifier" []) |||
  named "type_identifier" []

def namedType (lineEnd : Bool) : GoRule :=
  apart (typeName lineEnd ++
    opt (joined lineEnd ++ grow "generic_type" (ref .typeArguments)))

/-- A type name in front of an operand. A line break after a qualified name ends nothing, because a
name alone reads as an operand as well. -/
def operandType (lineEnd : Bool) : GoRule :=
  node "qualified_type" (named "package_identifier" valueWords ++ joined lineEnd ++ sign "." ++
    named "type_identifier" []) |||
  named "type_identifier" valueWords ++ joined lineEnd

def genericOperand (lineEnd plain : Bool) : GoRule :=
  apart (operandType lineEnd ++
    grow "generic_type" (if plain then ref .plainTypeArguments else ref .typeArguments))

def firmType (lineEnd plain : Bool) : GoRule :=
  oneOf structType
    [interfaceType, sliceType false, arrayType false, mapType false, channelType false,
     functionType false, negatedType false, genericOperand lineEnd plain,
     node "pointer_type" (sign "*" ++ ref (.firmType lineEnd plain)),
     node "parenthesized_type" (parens (ref (.firmType false plain)))]

def softType (lineEnd : Bool) : GoRule :=
  oneOf (operandType lineEnd)
    [node "pointer_type" (sign "*" ++ ref (.softType lineEnd)),
     node "parenthesized_type" (parens (ref (.softType false)))]

def typeElement (lineEnd : Bool) : GoRule :=
  node "type_elem" (list (joined lineEnd ++ sign "|") (type lineEnd))

def typeArguments : GoRule :=
  node "type_arguments"
    (sign "[" ++ list comma (ref (.typeElement false)) ++ opt comma ++ sign "]")

def plainTypeArguments : GoRule :=
  node "type_arguments"
    (sign "[" ++ list comma (node "type_elem" (type false)) ++ opt comma ++ sign "]")

def block : GoRule := node "block" (braces (opt (ref .statements)))

def label : GoRule := named "label_name" valueWords

/-- The label of a statement that is missing at the end of a list. -/
def emptyLabeled : GoRule := node "labeled_statement" (label ++ sameLine ++ sign ":")

def statements : GoRule :=
  (ref .statement ++ many (terminator ++ ref .statement) ++
    opt (terminator ++ opt emptyLabeled)) |||
  emptyLabeled

def statement : GoRule :=
  let target := named "label_name" []
  oneOf (node "labeled_statement" (label ++ sameLine ++ sign ":" ++ ref .statement)) <|
    declarations ++
    [ref .returnStatement,
     node "go_statement" (word "go" ++ expression closing),
     node "defer_statement" (word "defer" ++ expression closing),
     ref .conditional,
     ref .loop,
     ref .typeSwitch,
     ref .switch,
     ref .select,
     node "fallthrough_statement" (word "fallthrough"),
     node "break_statement" (word "break" ++ opt (sameLine ++ target)),
     node "continue_statement" (word "continue" ++ opt (sameLine ++ target)),
     node "goto_statement" (word "goto" ++ target),
     ref .block,
     leaf "empty_statement" (.sign ";")] ++
    [ref (.simple { closing with step := true } closing) ++ notAhead (.sign ":")]

def returnStatement : GoRule :=
  node "return_statement" (word "return" ++ opt (sameLine ++ ref (.expressions closing)))

def assignmentSigns : List String :=
  ["*=", "/=", "%=", "<<=", ">>=", "&=", "&^=", "+=", "-=", "|=", "^="]

def assigned (later : Follow) : GoRule :=
  grow "assignment_statement"
    (oneOf (sign "=") (assignmentSigns.map sign) ++ ref (.expressions later)) |||
  grow "short_var_declaration" (sign ":=" ++ ref (.expressions later))

/-- An expression may be a statement by itself; several on the left are only assigned to, and a line
break among them ends nothing. -/
def simple (first later : Follow) : GoRule :=
  let next := joined first.lineEnd
  apart (expression first ++ oneOf
    (next ++ grow "inc_statement" (sign "++"))
    [next ++ grow "dec_statement" (sign "--"),
     next ++ grow "send_statement" (sign "<-" ++ expression later),
     grow "expression_list" (next ++ comma ++ list comma (expression .inside)) ++ assigned later,
     grow "expression_list" empty ++ next ++ assigned later,
     grow "expression_statement" empty])

/-- A header is first read with literals of qualified and generic types in it. If no brace is left
after that, the last one opened the block. -/
def headed (header : Bool → GoRule) : GoRule := header false ++ ahead (.sign "\x7b") ||| header true

def conditional : GoRule :=
  let header (noLiteral : Bool) :=
    let test : Follow := { block := true, noLiteral }
    (role .initializer (ref (.simple { test with step := true } .inside)) ++ sign ";" ++
      role .condition (expression test)) |||
    role .condition (expression { test with step := true })
  node "if_statement" (word "if" ++ headed header ++ role .consequence (ref .block) ++
    opt (sameLine ++ word "else" ++ role .alternative (ref .block ||| ref .conditional)))

def loop : GoRule :=
  let header (noLiteral : Bool) :=
    let last : Follow := { block := true, noLiteral }
    let first := { last with step := true }
    let range := node "range_clause"
      (opt (ref (.expressions first) ++ (sign "=" ||| sign ":=")) ++ word "range" ++
        expression last)
    let clause := node "for_clause"
      (opt (ref (.simple first .inside)) ++ sign ";" ++ opt (expression .inside) ++ sign ";" ++
        opt (ref (.simple first last)))
    oneOf range [notAhead (.word "range") ++
      oneOf clause [expression first, ahead (.sign "\x7b")]]
  node "for_statement" (word "for" ++ headed header ++ ref .block)

def switchInit (noLiteral : Bool) : GoRule :=
  opt (ref (.simple { block := true, noLiteral, step := true, typeSwitch := true }
    { typeSwitch := true }) ++ sign ";")

def caseBody : GoRule := sign ":" ++ opt (ref .statements)

def defaultCase : GoRule := node "default_case" (word "default" ++ caseBody)

def switch : GoRule :=
  let case := node "expression_case" (word "case" ++ ref (.expressions .inside) ++ caseBody)
  let header (noLiteral : Bool) :=
    switchInit noLiteral ++
    opt (expression { block := true, noLiteral, step := true, typeSwitch := true })
  node "expression_switch_statement" (word "switch" ++ headed header ++
    braces (many (case ||| ref .defaultCase)))

def typeSwitch : GoRule :=
  let case := node "type_case" (word "case" ++ list comma (type false) ++ caseBody)
  let header (noLiteral : Bool) :=
    let value : Follow := { block := true, noLiteral, step := true, typeSwitch := true }
    switchInit noLiteral ++ opt (ref (.expressions value) ++ sign ":=") ++ ref (.primary value) ++
    sign "." ++ parens (word "type")
  node "type_switch_statement" (word "switch" ++ headed header ++
    braces (many (case ||| ref .defaultCase)))

def select : GoRule :=
  let sent := node "send_statement"
    (expression { step := true } ++ sign "<-" ++ expression .inside)
  let received := node "receive_statement"
    (opt (ref (.expressions { step := true }) ++ (sign "=" ||| sign ":=")) ++
      expression { step := true })
  let case := node "communication_case" (word "case" ++ (sent ||| received) ++ caseBody)
  node "select_statement" (word "select" ++ braces (many (case ||| ref .defaultCase)))

def expressions (follow : Follow) : GoRule :=
  node "expression_list" (list (joined follow.lineEnd ++ comma) (expression follow))

/-- The operators of a level. -/
def operators : Nat → List String
  | 5 => ["*", "/", "%", "<<", ">>", "&", "&^"]
  | 4 => ["+", "-", "|", "^"]
  | 3 => ["==", "!=", "<", "<=", ">", ">="]
  | 2 => ["&&"]
  | _ => ["||"]

/-- Pairs of operators that read as one token, by the level of the first. -/
def heldOperators : Nat → List (String × String)
  | 4 => [("+", "+"), ("-", "-")]
  | 3 => [("<", "-")]
  | _ => []

def operator (follow : Follow) (level : Nat) : GoRule :=
  let held := if follow.step then [] else (heldOperators level).map fun (a, b) => half a b
  match (operators level).map sign ++ held with
  | first :: rest => oneOf first rest
  | [] => sign "||"

/-- Operators of one level group to the left. -/
def binary (follow : Follow) (level : Nat) : GoRule :=
  let side (follow : Follow) : GoRule :=
    if level < 5 then ref (.binary follow (level + 1)) else ref (.unary follow)
  apart (side follow ++ many (joined follow.lineEnd ++
    grow "binary_expression" (operator follow level ++ side { follow with typeSwitch := false })))

def converted : GoRule :=
  grow "type_conversion_expression" (parens (expression .inside ++ opt comma))

/-- A pointer or channel type in front of a conversion takes its star or arrow. -/
def unary (follow : Follow) : GoRule :=
  let operators := oneOf (sign "+")
    [sign "-", sign "!", sign "^", sign "*", sign "&", sign "<-",
     half "+" "+", half "-" "-", half "&" "&", half "&" "^"]
  oneOf ((ahead (.sign "*") ||| ahead (.sign "<-")) ++ ref (.primary follow))
    [node "unary_expression" (operators ++ ref (.unary { follow with typeSwitch := false })),
     ref (.primary follow)]

def primary (follow : Follow) : GoRule :=
  apart (ref (.operand follow) ++ many (joined follow.lineEnd ++ ref (.suffix follow)))

def literals : List GoRule := [
  leaf "int_literal" (.kind .int), leaf "float_literal" (.kind .float),
  leaf "imaginary_literal" (.kind .imaginary), leaf "rune_literal" (.kind .rune),
  leaf "nil" (.word "nil"), leaf "true" (.word "true"), leaf "false" (.word "false"),
  leaf "iota" (.word "iota")]

/-- The first argument of an allocation is a type. Without arguments its word is a name. -/
def allocation (follow : Follow) : GoRule :=
  let allocator := leaf "identifier" (.word "new") ||| leaf "identifier" (.word "make")
  let arguments := node "argument_list"
    (parens (opt (type false ++ many (comma ++ expression .inside) ++ opt comma)))
  apart (allocator ++ (joined follow.lineEnd ++ grow "call_expression" arguments |||
    (if follow.lineEnd then newLine ||| notAhead (.sign "(") else notAhead (.sign "("))))

def functionLiteral : GoRule :=
  node "func_literal" (word "func" ++ ref .parameters ++ opt (ref (.result false)) ++ ref .block)

def compositeLiteral : GoRule :=
  let implicitArray := node "implicit_length_array_type"
    (sign "[" ++ sign "..." ++ sign "]" ++ type false)
  apart (oneOf structType [sliceType false, implicitArray, arrayType false, mapType false] ++
    grow "composite_literal" (ref .literalValue))

/-- The types of an instance. Type arguments in front of a parenthesis belong to a call. -/
def instantiated (types : GoRule) : GoRule :=
  grow "type_instantiation_expression" (sign "[" ++ types ++ sign "]") ++ notAhead (.sign "(")

/-- Operands that begin with a type. A type that reads as an expression as well begins an instance
only in front of several types, or of one that does not read as an expression. -/
def typedOperands (follow : Follow) : List GoRule :=
  let types := list comma (type false) ++ opt comma
  let severalTypes := type false ++ comma ++ opt types
  [apart (ref (.firmType follow.lineEnd false) ++ converted),
   apart (ref (.firmType follow.lineEnd true) ++ instantiated types),
   apart (ref (.softType follow.lineEnd) ++
    instantiated (severalTypes ||| ref (.firmType false true)))]

/-- Literals of a type that has a name. -/
def namedLiterals (follow : Follow) : List GoRule :=
  let value := grow "composite_literal" (ref .literalValue)
  let qualified := node "qualified_type" (named "package_identifier" valueWords ++
    joined follow.lineEnd ++ sign "." ++ named "type_identifier" [])
  (if follow.noLiteral then [] else
    [apart (genericOperand follow.lineEnd false ++ value), apart (qualified ++ value)]) ++
  (if follow.block then [] else
    [apart (named "type_identifier" valueWords ++ joined follow.lineEnd ++ value)])

def operand (follow : Follow) : GoRule :=
  oneOf string <| literals ++
    [allocation follow, functionLiteral, compositeLiteral] ++
    namedLiterals follow ++ typedOperands follow ++
    [node "parenthesized_expression" (parens (expression .inside)),
     named "identifier" valueWords]

/-- What turns an operand into a larger one. In front of a call, brackets hold type arguments if
they can; alternatives among them read as an operator first. -/
def suffix (follow : Follow) : GoRule :=
  let typeWord := if follow.typeSwitch then notAhead (.word "type") else empty
  let slice := grow "slice_expression"
    (sign ":" ++ opt (expression .inside ++ opt (sign ":" ++ expression .inside)) ++ sign "]")
  oneOf (grow "selector_expression" (sign "." ++ named "field_identifier" []))
    [grow "type_assertion_expression" (sign "." ++ parens (typeWord ++ type false)),
     grow "call_expression" (ref .plainTypeArguments ++ ref .arguments),
     grow "call_expression" (ref .arguments),
     sign "[" ++ oneOf slice
      [expression .inside ++ (grow "index_expression" (sign "]") ||| slice)],
     grow "call_expression" (ref .typeArguments ++ ref .arguments)]

def arguments : GoRule :=
  let argument := apart (expression .inside ++ opt (grow "variadic_argument" (sign "...")))
  node "argument_list" (parens (opt (list comma argument ++ opt comma)))

def literalValue : GoRule :=
  let element := apart (ref .literalElement ++
    opt (grow "keyed_element" (sign ":" ++ ref .literalElement)))
  node "literal_value" (braces (opt (list comma element) ++ opt comma))

def literalElement : GoRule :=
  node "literal_element" (expression .inside ||| ref .literalValue)

end Grammar

/-- The rule of each name. -/
def Symbol.rule : Symbol → Rule Symbol
  | source => Grammar.source
  | topLevel => Grammar.topLevel
  | importDeclaration => Grammar.importDeclaration
  | importSpec => Grammar.importSpec
  | constSpec => Grammar.constSpec
  | varSpec => Grammar.varSpec
  | typeSpec => Grammar.typeSpec
  | typeParameters => Grammar.typeParameters
  | parameters => Grammar.parameters
  | parameter => Grammar.parameter
  | result lineEnd => Grammar.result lineEnd
  | fieldList => Grammar.fieldList
  | field => Grammar.field
  | interfaceElement => Grammar.interfaceElement
  | type lineEnd => Grammar.anyType lineEnd
  | simpleType lineEnd => Grammar.simpleType lineEnd
  | namedType lineEnd => Grammar.namedType lineEnd
  | firmType lineEnd plain => Grammar.firmType lineEnd plain
  | softType lineEnd => Grammar.softType lineEnd
  | typeElement lineEnd => Grammar.typeElement lineEnd
  | typeArguments => Grammar.typeArguments
  | plainTypeArguments => Grammar.plainTypeArguments
  | block => Grammar.block
  | statements => Grammar.statements
  | statement => Grammar.statement
  | returnStatement => Grammar.returnStatement
  | simple first later => Grammar.simple first later
  | conditional => Grammar.conditional
  | loop => Grammar.loop
  | switch => Grammar.switch
  | typeSwitch => Grammar.typeSwitch
  | select => Grammar.select
  | defaultCase => Grammar.defaultCase
  | expressions follow => Grammar.expressions follow
  | expression follow => .ref (.binary follow 1)
  | binary follow level => Grammar.binary follow level
  | unary follow => Grammar.unary follow
  | primary follow => Grammar.primary follow
  | operand follow => Grammar.operand follow
  | suffix follow => Grammar.suffix follow
  | arguments => Grammar.arguments
  | literalValue => Grammar.literalValue
  | literalElement => Grammar.literalElement

/-- Enough fuel to read this many tokens: between two tokens the rules nest less deep than the
factor. -/
def Grammar.fuel (tokens : Nat) : Nat := 128 * (tokens + 1)

/-- The trees of a whole source, its last token left out, or nothing if the grammar rejects it. -/
def Tree.ofTokens? (tokens : List Token) : Option (List Tree) :=
  match Rule.run Symbol.rule (Grammar.fuel tokens.length) (.ref .source) [] tokens with
  | .read (_ :: parts) [] => some parts.reverse
  | _ => none

end SentinelWrap.Go
