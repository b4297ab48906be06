import SentinelWrap.Go.Token.Quoted
import SentinelWrap.Text.Identifier
import SentinelWrap.Text.Span
/-!
Tokens of a Go source. Blanks and comments are dropped; of the line breaks between two tokens the
first is kept with the later one, because it may end a statement there.
-/
namespace SentinelWrap.Go

inductive TokenKind
  | word
  | int
  | float
  | imaginary
  | rune
  | string
  | rawString
  | sign
  /-- A line break that ends a statement. -/
  | lineEnd
  /-- The end of the source. -/
  | finish
deriving DecidableEq, Repr

structure Token where
  kind : TokenKind
  text : String
  span : Span
  /-- The offset of the first line break since the token before this one. -/
  lineEnd : Option Nat
deriving DecidableEq, Repr

/-- A place in a source where no token begins, and the text found there. -/
structure Unexpected where
  offset : Nat
  text : String
deriving DecidableEq, Repr

namespace Token

/-- Operators and punctuation, longer ones before their own beginnings. -/
def signs : List String := [
  "&^=", "<<=", ">>=", "...",
  "&&", "||", "<-", "++", "--", "==", "!=", "<=", ">=", ":=", "+=", "-=", "*=", "/=", "%=", "&=",
  "|=", "^=", "<<", ">>", "&^",
  "+", "-", "*", "/", "%", "&", "|", "^", "<", ">", "=", "!", "~", "(", ")", "[", "]", "\x7b", "\x7d",
  ",", ";", ".", ":", "\x00"]

def scanSign : Scan := fun cs =>
  (signs.find? fun s => s.toList.isPrefixOf cs).map String.length

def scanWord : Scan
  | c :: cs =>
    if Text.Identifier.isStart c then some ((cs.takeWhile Text.Identifier.isContinue).length + 1)
    else none
  | [] => none

/-- The classes of tokens. No two find the same lexeme, and the longest lexeme wins. -/
def classes : List (TokenKind × Scan) := [
  (.word, scanWord),
  (.int, Number.int), (.float, Number.float), (.imaginary, Number.imaginary),
  (.rune, Quoted.rune), (.string, Quoted.string), (.rawString, Quoted.rawString),
  (.sign, scanSign)]

/-- The class and the length of the token at the front of a text. -/
def scan? (cs : List Char) : Option (TokenKind × Nat) :=
  classes.foldl (fun best (kind, scan) =>
    match scan cs, best with
    | some n, some (_, m) => if m < n then some (kind, n) else best
    | some n, none => some (kind, n)
    | none, _ => best) none

def isBlank (c : Char) : Bool := c == ' ' || c == '\t' || c == '\r' || c == '\n'

/-- The length of a block comment after its opening, the closing included. -/
def commentTail : List Char → Option Nat
  | '*' :: '/' :: _ => some 2
  | _ :: cs => (commentTail cs).map (· + 1)
  | [] => none

/-- A line comment stops before the line break. A block comment that is never closed is none. -/
def scanComment : Scan
  | '/' :: '/' :: cs => some ((cs.takeWhile (· != '\n')).length + 2)
  | '/' :: '*' :: cs => (commentTail cs).map (· + 2)
  | _ => none

/-- What stands before the next line break, without trailing blanks. -/
def restOfLine (cs : List Char) : List Char :=
  ((cs.takeWhile (· != '\n')).reverse.dropWhile isBlank).reverse

/-- The tokens of a text that begins at a byte offset, with the end of the source as the last one.
One unit of fuel is spent on each blank, comment and token. -/
def listFrom : Nat → Nat → Option Nat → List Char → Except Unexpected (List Token)
  | _, offset, lineEnd, [] => .ok [⟨.finish, "", ⟨offset, offset⟩, lineEnd⟩]
  | 0, offset, _, cs => .error ⟨offset, String.ofList (restOfLine cs)⟩
  | fuel + 1, offset, lineEnd, c :: rest =>
    if isBlank c then
      let lineEnd := if c == '\n' then lineEnd <|> some offset else lineEnd
      listFrom fuel (offset + c.utf8Size) lineEnd rest
    else
      let cs := c :: rest
      match scanComment cs with
      | some n => listFrom fuel (offset + Text.size (cs.take n)) lineEnd (cs.drop n)
      | none =>
        match scan? cs with
        | some (kind, n) => do
          let stop := offset + Text.size (cs.take n)
          let tokens ← listFrom fuel stop none (cs.drop n)
          return ⟨kind, String.ofList (cs.take n), ⟨offset, stop⟩, lineEnd⟩ :: tokens
        | none => .error ⟨offset, String.ofList (restOfLine cs)⟩

/-- Where the text begins: a byte order mark at its front is skipped. -/
def markSize : List Char → Nat
  | '\uFEFF' :: _ => 1
  | _ => 0

/-- The tokens of a source. -/
def list (source : List Char) : Except Unexpected (List Token) :=
  let n := markSize source
  listFrom source.length (Text.size (source.take n)) none (source.drop n)

end Token
end SentinelWrap.Go
