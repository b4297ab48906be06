/-!
Glob patterns: `?` stands for one character, `*` for any text, `**` for any number of whole path
components, brackets for one character of a set. Separators are characters like any other.
-/
namespace SentinelWrap

namespace Glob

/-- The characters from the first to the second. -/
abbrev CharRange := Char × Char

inductive Token
  | char (c : Char)
  | anyChar
  | anyText
  | anyComponents
  | oneOf (ranges : List CharRange)
  | noneOf (ranges : List CharRange)
deriving DecidableEq, Repr

/-- Why a text is no pattern, with the number of the character near the fault. -/
inductive Fault
  | stars (position : Nat)
  | components (position : Nat)
  | brackets (position : Nat)
deriving DecidableEq, Repr

namespace Fault

def position : Fault → Nat
  | stars n | components n | brackets n => n

def reason : Fault → String
  | stars _ => "wildcards are either regular \x60*\x60 or recursive \x60**\x60"
  | components _ => "recursive wildcards must form a single path component"
  | brackets _ => "invalid range pattern"

def message (fault : Fault) : String :=
  s!"Pattern syntax error near position {fault.position}: {fault.reason}"

end Fault

/-- Between brackets a dash makes a range, unless it stands first or last. -/
def ranges : List Char → List CharRange
  | a :: '-' :: b :: rest => (a, b) :: ranges rest
  | a :: rest => (a, a) :: ranges rest
  | [] => []

/-- The first character always belongs to the set; the set ends before the next bracket. -/
def set? : List Char → Option (List Char × List Char)
  | [] => none
  | c :: rest =>
    match rest.dropWhile (· != ']') with
    | _ :: after => some (c :: rest.takeWhile (· != ']'), after)
    | [] => none

/-- The token that an opening bracket begins, and what follows it. -/
def bracketed? : List Char → Option (Token × List Char)
  | '!' :: rest => (set? rest).map fun (set, after) => (.noneOf (ranges set), after)
  | rest => (set? rest).map fun (set, after) => (.oneOf (ranges set), after)

/-- Reads on at a character number, after the given character. -/
def tokensFrom : Nat → Nat → Option Char → List Char → Except Fault (List Token)
  | _, _, _, [] => return []
  | 0, _, _, _ => return []
  | fuel + 1, n, previous, c :: rest =>
    match c with
    | '?' => return .anyChar :: (← tokensFrom fuel (n + 1) (some c) rest)
    | '*' =>
      match rest with
      | '*' :: '*' :: _ => throw (.stars (n + 2))
      | '*' :: rest =>
        if previous.any (· != '/') then throw (.components (n - 1))
        else
          match rest with
          | [] => return [.anyComponents]
          | '/' :: rest => return .anyComponents :: (← tokensFrom fuel (n + 3) (some '/') rest)
          | _ => throw (.components (n + 2))
      | rest => return .anyText :: (← tokensFrom fuel (n + 1) (some c) rest)
    | '[' =>
      match bracketed? rest with
      | none => throw (.brackets n)
      | some (token, after) =>
        let size := 1 + rest.length - after.length
        return token :: (← tokensFrom fuel (n + size) (some ']') after)
    | c => return .char c :: (← tokensFrom fuel (n + 1) (some c) rest)

def inRange (c : Char) (range : CharRange) : Bool := range.1 ≤ c && c ≤ range.2

/-- A single character for a token; tokens that stand for a text accept none. -/
def Token.accepts (c : Char) : Token → Bool
  | char d => c == d
  | anyChar => true
  | oneOf ranges => ranges.any (inRange c)
  | noneOf ranges => !ranges.any (inRange c)
  | anyText | anyComponents => false

/-- A text and every text left after dropping characters from its front. -/
def suffixes : List Char → List (List Char)
  | [] => [[]]
  | c :: cs => (c :: cs) :: suffixes cs

/-- The texts that begin after a separator, and the empty one. -/
def afterSeparators : List Char → List (List Char)
  | [] => [[]]
  | c :: cs => if c == '/' then cs :: afterSeparators cs else afterSeparators cs

def matchesTokens : List Token → List Char → Bool
  | [], cs => cs.isEmpty
  | .anyText :: ts, cs => (suffixes cs).any (matchesTokens ts)
  | .anyComponents :: ts, cs => (cs :: afterSeparators cs).any (matchesTokens ts)
  | t :: ts, c :: cs => t.accepts c && matchesTokens ts cs
  | _ :: _, [] => false

end Glob

structure Glob where
  tokens : List Glob.Token
deriving DecidableEq, Repr

namespace Glob

def parse (pattern : String) : Except Fault Glob :=
  let cs := pattern.toList
  return ⟨← tokensFrom cs.length 0 none cs⟩

/-- The whole text matches. -/
def isMatch (glob : Glob) (text : String) : Bool := matchesTokens glob.tokens text.toList

end Glob
end SentinelWrap
