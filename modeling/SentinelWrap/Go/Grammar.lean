import SentinelWrap.Go.Tree
/-!
Grammars as values, and the recogniser that runs one.

A rule reads tokens from the front of a list and adds trees to the parts read so far. Choices are
ordered: the second alternative counts only where the first one fails.
-/
namespace SentinelWrap.Go

/-- Words that are never names. -/
def keywords : List String := [
  "break", "case", "chan", "const", "continue", "default", "defer", "else", "fallthrough", "for",
  "func", "go", "goto", "if", "import", "interface", "map", "package", "range", "return", "select",
  "struct", "switch", "type", "var"]

/-- What a rule asks of the next token. -/
inductive Terminal
  /-- This word. -/
  | word (text : String)
  /-- A word that is no keyword and none of these. -/
  | name (reserved : List String)
  /-- This operator or punctuation mark. -/
  | sign (text : String)
  /-- A token of this kind. -/
  | kind (kind : TokenKind)
deriving DecidableEq, Repr

def Terminal.accepts : Terminal → Token → Bool
  | word text, t => t.kind == .word && t.text == text
  | name reserved, t => t.kind == .word && !keywords.contains t.text && !reserved.contains t.text
  | sign text, t => t.kind == .sign && t.text == text
  | kind k, t => t.kind == k

/-- Rules over the named rules `σ`. -/
inductive Rule (σ : Type)
  /-- Reads nothing. -/
  | empty
  /-- Reads one token. -/
  | token (t : Terminal)
  /-- Reads one token as a node of its own. -/
  | leaf (kind : String) (t : Terminal)
  /-- Reads the first sign of a token that is two signs in a row, and leaves the second. -/
  | half (first second : String)
  /-- Reads the line break before the next token. -/
  | lineEnd
  /-- Reads nothing; no line break stands before the next token. -/
  | sameLine
  /-- Reads nothing; a line break stands before the next token. -/
  | newLine
  /-- Reads nothing; the next token is such a one. -/
  | ahead (t : Terminal)
  /-- Reads nothing; the next token is not such a one. -/
  | notAhead (t : Terminal)
  | seq (a b : Rule σ)
  | alt (a b : Rule σ)
  | many (a : Rule σ)
  | ref (name : σ)
  /-- Groups what `a` reads into a node. -/
  | node (kind : String) (a : Rule σ)
  /-- Groups the parts read so far and what `a` reads into a node. -/
  | grow (kind : String) (a : Rule σ)
  /-- Starts with no parts, so that `grow` inside `a` reaches no further back. -/
  | apart (a : Rule σ)
  | role (role : Role) (a : Rule σ)
  /-- What `a` reads has more than this many bytes. -/
  | longer (size : Nat) (a : Rule σ)

namespace Rule
variable {σ : Type}

instance : Append (Rule σ) := ⟨seq⟩
instance : OrOp (Rule σ) := ⟨alt⟩

theorem append_eq (a b : Rule σ) : a ++ b = seq a b := rfl

def opt (a : Rule σ) : Rule σ := a ||| empty

/-- The first of the rules that succeeds. -/
def oneOf (first : Rule σ) : List (Rule σ) → Rule σ
  | [] => first
  | next :: rest => alt first (oneOf next rest)

/-- `a` once or more, with `separator` between. -/
def list (separator a : Rule σ) : Rule σ := a ++ many (separator ++ a)

end Rule

/-- How a run of a rule ends. -/
inductive Reading
  /-- The fuel is used up. -/
  | starved
  /-- The tokens are not what the rule asks for. -/
  | rejected
  /-- The parts read so far, last first, and the tokens that are left. -/
  | read (parts : List Tree) (rest : List Token)

namespace Reading

/-- Goes on from what was read. -/
def andThen : Reading → (List Tree → List Token → Reading) → Reading
  | starved, _ => starved
  | rejected, _ => rejected
  | read parts rest, next => next parts rest

/-- Tries something else where nothing could be read. -/
def orElse : Reading → (Unit → Reading) → Reading
  | starved, _ => starved
  | rejected, other => other ()
  | read parts rest, _ => read parts rest

end Reading

namespace Rule
variable {σ : Type}

/-- Runs a rule. The parts read so far are given last first, and so are those of the answer. Fuel
bounds the depth of the recursion. -/
def run (rules : σ → Rule σ) : Nat → Rule σ → List Tree → List Token → Reading
  | 0, _, _, _ => .starved
  | fuel + 1, rule, parts, tokens =>
    match rule with
    | empty => .read parts tokens
    | token t =>
      match tokens with
      | next :: rest => if t.accepts next then .read (.token next :: parts) rest else .rejected
      | [] => .rejected
    | leaf kind t =>
      match tokens with
      | next :: rest =>
        if t.accepts next then .read (.node kind .plain [.token next] :: parts) rest else .rejected
      | [] => .rejected
    | half first second =>
      match tokens with
      | next :: rest =>
        if next.kind = .sign ∧ next.text = first ++ second then
          let middle := next.span.start + Text.size first.toList
          .read (.token { next with text := first, span := ⟨next.span.start, middle⟩ } :: parts)
            ({ next with text := second, span := ⟨middle, next.span.stop⟩, lineEnd := none } :: rest)
        else .rejected
      | [] => .rejected
    | lineEnd =>
      match tokens with
      | next :: rest =>
        match next.lineEnd with
        | some offset =>
          .read (.token ⟨.lineEnd, "\n", ⟨offset, offset + 1⟩, none⟩ :: parts)
            ({ next with lineEnd := none } :: rest)
        | none => .rejected
      | [] => .rejected
    | sameLine =>
      match tokens with
      | next :: _ => if next.lineEnd.isNone then .read parts tokens else .rejected
      | [] => .rejected
    | newLine =>
      match tokens with
      | next :: _ => if next.lineEnd.isSome then .read parts tokens else .rejected
      | [] => .rejected
    | ahead t =>
      match tokens with
      | next :: _ => if t.accepts next then .read parts tokens else .rejected
      | [] => .rejected
    | notAhead t =>
      match tokens with
      | next :: _ => if t.accepts next then .rejected else .read parts tokens
      | [] => .rejected
    | seq a b => (run rules fuel a parts tokens).andThen (run rules fuel b)
    | alt a b => (run rules fuel a parts tokens).orElse fun _ => run rules fuel b parts tokens
    | many a =>
      ((run rules fuel a parts tokens).andThen (run rules fuel (many a))).orElse fun _ =>
        .read parts tokens
    | ref name => run rules fuel (rules name) parts tokens
    | node kind a =>
      (run rules fuel a [] tokens).andThen fun children =>
        .read (.node kind .plain children.reverse :: parts)
    | grow kind a =>
      (run rules fuel a parts tokens).andThen fun children =>
        .read [.node kind .plain children.reverse]
    | apart a => (run rules fuel a [] tokens).andThen fun more => .read (more ++ parts)
    | role r a =>
      (run rules fuel a [] tokens).andThen fun more =>
        .read (more.map (Tree.withRole r) ++ parts)
    | longer size a =>
      (run rules fuel a [] tokens).andThen fun more rest =>
        if size < Tree.sizeOfParts more then .read (more ++ parts) rest else .rejected

end Rule
end SentinelWrap.Go
