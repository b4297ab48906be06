import SentinelWrap.Text.Span
/-! Replacements of byte ranges of a text. -/
namespace SentinelWrap

structure Edit where
  range : Span
  newText : String
deriving DecidableEq, Repr

namespace Edit

/-- Some byte lies strictly inside both ranges, or one range strictly around the other's place. -/
def overlaps (a b : Edit) : Bool :=
  a.range.start < b.range.stop && b.range.start < a.range.stop

/-- By start, then by end, then by the new text. -/
def compare (a b : Edit) : Ordering :=
  (Ord.compare a.range.start b.range.start).then
    ((Ord.compare a.range.stop b.range.stop).then (Ord.compare a.newText b.newText))

def le (a b : Edit) : Bool := (a.compare b).isLE

/-- The range lies in the text, the right way round, and cuts no character. -/
def fits (text : List Char) (e : Edit) : Bool :=
  e.range.start ≤ e.range.stop && Text.isBoundary e.range.start text &&
    Text.isBoundary e.range.stop text

/-- Two edits that cannot both be applied. -/
def clashes (a b : Edit) : Bool := a.overlaps b || a.range == b.range

end Edit
end SentinelWrap
