import SentinelWrap.Go.Token
/-! Concrete trees: every token of a source, grouped by the grammar. -/
namespace SentinelWrap.Go

/-- What a part is to the conditional it belongs to. -/
inductive Role
  | plain
  | initializer
  | condition
  | consequence
  | alternative
deriving DecidableEq, Repr

/-- A node has a kind and children; a token stands for itself. -/
inductive Tree
  | token (t : Token)
  | node (kind : String) (role : Role) (children : List Tree)

namespace Tree

mutual

/-- The offset of the first token. -/
def start : Tree → Nat
  | token t => t.span.start
  | node _ _ cs => startOfList cs

def startOfList : List Tree → Nat
  | [] => 0
  | c :: _ => c.start

end

mutual

/-- The offset after the last token. -/
def stop : Tree → Nat
  | token t => t.span.stop
  | node _ _ cs => stopOfList cs

def stopOfList : List Tree → Nat
  | [] => 0
  | [c] => c.stop
  | _ :: c :: cs => stopOfList (c :: cs)

end

/-- From the first token to the last one. -/
def span (t : Tree) : Span := ⟨t.start, t.stop⟩

/-- The number of bytes from the first tree to the last one, given last first. -/
def sizeOfParts (parts : List Tree) : Nat :=
  match parts.head?, parts.getLast? with
  | some last, some first => last.stop - first.start
  | _, _ => 0

/-- Gives a node its role; a token has none. -/
def withRole (role : Role) : Tree → Tree
  | token t => token t
  | node kind _ children => node kind role children

def isNode : Tree → Bool
  | token _ => false
  | node .. => true

end Tree
end SentinelWrap.Go
