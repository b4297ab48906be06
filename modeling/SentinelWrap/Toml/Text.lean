import SentinelWrap.Text.Hex
/-!
The lexical level of TOML: blanks, comments, line ends, strings and keys. Readers take the text that
is left and give back a result and what follows it.
-/
namespace SentinelWrap.Toml

abbrev Reader (α : Type) := List Char → Option (α × List Char)

def isBlank (c : Char) : Bool := c == ' ' || c == '\t'

def skipBlanks (cs : List Char) : List Char := cs.dropWhile isBlank

/-- Control characters other than the tab may stand nowhere in a line. -/
def isPlain (c : Char) : Bool := c == '\t' || (' ' ≤ c && c != '\x7f')

/-- A line break, or the end of the text. -/
def lineEnd? : List Char → Option (List Char)
  | [] => some []
  | '\n' :: rest => some rest
  | '\r' :: '\n' :: rest => some rest
  | _ => none

/-- Blanks and a comment, up to the end of the line. -/
def skipComment (cs : List Char) : List Char :=
  match skipBlanks cs with
  | '#' :: rest => rest.dropWhile isPlain
  | rest => rest

/-- What may stand between the values of an array: blanks, line breaks and comments. -/
def skipLines : Nat → List Char → List Char
  | 0, cs => cs
  | fuel + 1, cs =>
    match skipComment cs with
    | '\n' :: rest => skipLines fuel rest
    | '\r' :: '\n' :: rest => skipLines fuel rest
    | rest => rest

def codePoint? (count : Nat) (cs : List Char) : Option (Char × List Char) := do
  let (n, rest) ← Text.hexNumber? count cs
  return (← Text.scalar? n, rest)

/-- What follows a backslash. -/
def escape? : List Char → Option (Char × List Char)
  | 'b' :: rest => some ('\x08', rest)
  | 't' :: rest => some ('\t', rest)
  | 'n' :: rest => some ('\n', rest)
  | 'f' :: rest => some ('\x0c', rest)
  | 'r' :: rest => some ('\r', rest)
  | 'e' :: rest => some ('\x1b', rest)
  | '"' :: rest => some ('"', rest)
  | '\\' :: rest => some ('\\', rest)
  | 'x' :: rest => codePoint? 2 rest
  | 'u' :: rest => codePoint? 4 rest
  | 'U' :: rest => codePoint? 8 rest
  | _ => none

/-- The rest of a string in double quotes. -/
def basicString : Nat → Reader (List Char)
  | _, [] => none
  | 0, _ => none
  | fuel + 1, c :: rest =>
    if c == '"' then some ([], rest)
    else if c == '\\' then do
      let (c, rest) ← escape? rest
      let (text, rest) ← basicString fuel rest
      return (c :: text, rest)
    else if isPlain c then do
      let (text, rest) ← basicString fuel rest
      return (c :: text, rest)
    else none

/-- The rest of a string in single quotes, where nothing is escaped. -/
def literalString : Reader (List Char)
  | [] => none
  | c :: rest =>
    if c == '\'' then some ([], rest)
    else if isPlain c then do
      let (text, rest) ← literalString rest
      return (c :: text, rest)
    else none

/-- The end of a string over several lines: three quotes, and up to two more that belong to it. -/
def tripleEnd? (quote : Char) (cs : List Char) : Option (List Char × List Char) :=
  let quotes := cs.takeWhile (· == quote)
  if 3 ≤ quotes.length then
    let extra := min (quotes.length - 3) 2
    some (List.replicate extra quote, cs.drop (3 + extra))
  else none

/-- A line break right after the opening quotes is no part of the string. -/
def skipFirstBreak (cs : List Char) : List Char :=
  match cs with
  | '\n' :: rest => rest
  | '\r' :: '\n' :: rest => rest
  | cs => cs

def isGap (c : Char) : Bool := isBlank c || c == '\n'

/-- After a backslash at the end of a line: blanks and line breaks up to the next text. -/
def skipGap : Nat → List Char → List Char
  | fuel + 1, '\r' :: '\n' :: rest => skipGap fuel rest
  | fuel + 1, c :: rest => if isGap c then skipGap fuel rest else c :: rest
  | _, cs => cs

/-- A backslash before blanks and a line break joins lines. -/
def joinsLines (cs : List Char) : Bool :=
  match skipBlanks cs with
  | '\n' :: _ => true
  | '\r' :: '\n' :: _ => true
  | _ => false

/-- The rest of a string in three double quotes. -/
def longBasicString : Nat → Reader (List Char)
  | _, [] => none
  | 0, _ => none
  | fuel + 1, c :: rest =>
    match tripleEnd? '"' (c :: rest) with
    | some result => some result
    | none =>
      let more (c : Char) (rest : List Char) : Option (List Char × List Char) := do
        let (text, rest) ← longBasicString fuel rest
        return (c :: text, rest)
      if c == '\\' then
        if joinsLines rest then longBasicString fuel (skipGap rest.length rest)
        else do
          let (c, rest) ← escape? rest
          more c rest
      else if c == '\r' then
        match rest with
        | '\n' :: rest => more '\n' rest
        | _ => none
      else if c == '\n' || isPlain c then more c rest
      else none

/-- The rest of a string in three single quotes. -/
def longLiteralString : Reader (List Char)
  | [] => none
  | c :: rest =>
    match tripleEnd? '\'' (c :: rest) with
    | some result => some result
    | none =>
      if c == '\r' && rest.head? != some '\n' then none
      else if c == '\r' || c == '\n' || isPlain c then do
        let (text, rest) ← longLiteralString rest
        return (c :: text, rest)
      else none

/-- A string on one line. -/
def shortString? : Reader (List Char)
  | '"' :: rest => basicString rest.length rest
  | '\'' :: rest => literalString rest
  | _ => none

def string? : Reader (List Char)
  | '"' :: '"' :: '"' :: rest =>
    let rest := skipFirstBreak rest
    longBasicString rest.length rest
  | '\'' :: '\'' :: '\'' :: rest => longLiteralString (skipFirstBreak rest)
  | cs => shortString? cs

def isBare (c : Char) : Bool := c.isAlphanum || c == '_' || c == '-'

def simpleKey? (cs : List Char) : Option (String × List Char) :=
  match cs with
  | '"' :: '"' :: '"' :: _ | '\'' :: '\'' :: '\'' :: _ => none
  | '"' :: _ | '\'' :: _ => (shortString? cs).map fun (text, rest) => (String.ofList text, rest)
  | cs =>
    match cs.takeWhile isBare with
    | [] => none
    | name => some (String.ofList name, cs.dropWhile isBare)

/-- A key and the keys that follow after dots; blanks around each are skipped. -/
def dottedKey? : Nat → Reader (List String)
  | 0, _ => none
  | fuel + 1, cs => do
    let (key, rest) ← simpleKey? (skipBlanks cs)
    match skipBlanks rest with
    | '.' :: rest =>
      let (keys, rest) ← dottedKey? fuel rest
      return (key :: keys, rest)
    | rest => return ([key], rest)

end SentinelWrap.Toml
