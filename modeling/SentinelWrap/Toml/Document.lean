import SentinelWrap.Toml.Scalar
import SentinelWrap.Toml.Table
import SentinelWrap.Toml.Text
/-! Whole TOML documents, as version 1.1 of the format defines them. -/
namespace SentinelWrap.Toml

def isWordChar (c : Char) : Bool :=
  c.isAlphanum || c == '_' || c == '+' || c == '-' || c == '.' || c == ':'

/-- A word without quotes. A date may be followed by one space and a time. -/
def word (cs : List Char) : List Char × List Char :=
  let first := cs.takeWhile isWordChar
  let rest := cs.dropWhile isWordChar
  match rest with
  | ' ' :: c :: after =>
    if c.isDigit && date? first == some [] then
      (first ++ ' ' :: (c :: after).takeWhile isWordChar, (c :: after).dropWhile isWordChar)
    else (first, rest)
  | _ => (first, rest)

mutual

/-- One unit of fuel is spent on every value, item and entry. -/
def value? : Nat → Reader Value
  | 0, _ => none
  | fuel + 1, cs =>
    match cs with
    | '"' :: _ | '\'' :: _ => (string? cs).map fun (text, rest) => (.string (String.ofList text), rest)
    | '[' :: rest => (items? fuel rest).map fun (items, rest) => (.array items, rest)
    | '\x7b' :: rest =>
      (inline? fuel [] rest).map fun (entries, rest) => (.table (Entries.values entries), rest)
    | cs => (scalar (word cs).1).map fun value => (value, (word cs).2)

/-- The items of an array from an opening bracket or a comma on. -/
def items? : Nat → Reader (List Value)
  | 0, _ => none
  | fuel + 1, cs =>
    match skipLines cs.length cs with
    | ']' :: rest => some ([], rest)
    | cs => do
      let (item, rest) ← value? fuel cs
      match skipLines rest.length rest with
      | ',' :: rest =>
        let (items, rest) ← items? fuel rest
        return (item :: items, rest)
      | ']' :: rest => return ([item], rest)
      | _ => none

/-- The entries of a table in braces from an opening brace or a comma on. -/
def inline? : Nat → Entries → Reader Entries
  | 0, _, _ => none
  | fuel + 1, entries, cs =>
    match skipLines cs.length cs with
    | '\x7d' :: rest => some (entries, rest)
    | cs => do
      let (keys, value, rest) ← assignment? fuel cs
      let entries ← Entries.assign value true keys entries
      match skipLines rest.length rest with
      | ',' :: rest => inline? fuel entries rest
      | '\x7d' :: rest => return (entries, rest)
      | _ => none

/-- A key, an equals sign and a value. -/
def assignment? : Nat → List Char → Option (List String × Value × List Char)
  | 0, _ => none
  | fuel + 1, cs => do
    let (keys, rest) ← dottedKey? cs.length cs
    match rest with
    | '=' :: rest =>
      let (value, rest) ← value? fuel (skipBlanks rest)
      return (keys, value, rest)
    | _ => none

end

/-- What a line of a document does: open a table, or give a key of the open table a value. -/
inductive Statement
  | table (keys : List String)
  | tables (keys : List String)
  | assign (keys : List String) (value : Value)

/-- A statement without what may follow it on its line. -/
def statement? (cs : List Char) : Option (Statement × List Char) :=
  match cs with
  | '[' :: '[' :: rest => do
    match ← dottedKey? rest.length rest with
    | (keys, ']' :: ']' :: rest) => return (.tables keys, rest)
    | _ => none
  | '[' :: rest => do
    match ← dottedKey? rest.length rest with
    | (keys, ']' :: rest) => return (.table keys, rest)
    | _ => none
  | cs => do
    let (keys, value, rest) ← assignment? (2 * cs.length + 2) cs
    return (.assign keys value, rest)

/-- The statements of a document, one a line. -/
def statements? : Nat → List Char → Option (List Statement)
  | 0, _ => none
  | fuel + 1, cs =>
    match skipLines cs.length cs with
    | [] => some []
    | cs => do
      let (statement, rest) ← statement? cs
      let rest ← lineEnd? (skipComment rest)
      return statement :: (← statements? fuel rest)

/-- The entries after some statements, given the keys of the open table. -/
def build? : List String → Entries → List Statement → Option Entries
  | _, entries, [] => some entries
  | _, entries, .table keys :: rest => do
    build? keys (← Entries.atHeader Entries.openTable keys entries) rest
  | _, entries, .tables keys :: rest => do
    build? keys (← Entries.atHeader Entries.addTable keys entries) rest
  | opened, entries, .assign keys value :: rest => do
    build? opened (← Entries.descend (Entries.assign value true keys) opened entries) rest

/-- A byte order mark at the front is skipped. -/
def skipMark : List Char → List Char
  | '\uFEFF' :: rest => rest
  | cs => cs

def parse? (text : String) : Option (List (String × Value)) := do
  let cs := skipMark text.toList
  return Entries.values (← build? [] [] (← statements? (cs.length + 1) cs))

end SentinelWrap.Toml
