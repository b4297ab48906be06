/-! Byte ranges of a text and the part of the text they cover. -/
namespace SentinelWrap

/-- A half-open range of byte offsets. Nothing orders the two ends. -/
structure Span where
  start : Nat
  stop : Nat
deriving DecidableEq, Repr

namespace Text

/-- The number of bytes of a text in UTF-8. -/
def size : List Char → Nat
  | [] => 0
  | c :: cs => c.utf8Size + size cs

/-- The text before a byte offset and the text from it on, if the offset is a character boundary. -/
def splitAt? : Nat → List Char → Option (List Char × List Char)
  | 0, cs => some ([], cs)
  | _ + 1, [] => none
  | n + 1, c :: cs =>
    if c.utf8Size ≤ n + 1 then
      (splitAt? (n + 1 - c.utf8Size) cs).map fun (before, after) => (c :: before, after)
    else none

/-- The offset lies inside the text, or at its end, and splits no character. -/
def isBoundary (n : Nat) (cs : List Char) : Bool := (splitAt? n cs).isSome

end Text

namespace Span

def length (s : Span) : Nat := s.stop - s.start

def isEmpty (s : Span) : Bool := s.length == 0

/-- The characters between the two ends; fails if an end is past the text or inside a character,
or if the ends are reversed. -/
def slice? (s : Span) (text : List Char) : Option (List Char) :=
  if s.start ≤ s.stop then do
    let (_, rest) ← Text.splitAt? s.start text
    let (covered, _) ← Text.splitAt? s.length rest
    return covered
  else none

/-- The covered text, empty where `slice?` fails. -/
def slice (s : Span) (text : List Char) : List Char := (s.slice? text).getD []

/-- The smallest range from the start of one span to the end of another. -/
def through (a b : Span) : Span := ⟨a.start, b.stop⟩

end Span
end SentinelWrap
