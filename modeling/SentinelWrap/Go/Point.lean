import SentinelWrap.Text.Span
/-!
Rows and columns as the reader of a source counts them: from zero, while it moves on over the source
one character after the other. Columns count bytes.
-/
namespace SentinelWrap.Go

structure Point where
  row : Nat
  column : Nat
deriving DecidableEq, Repr

namespace Point

/-- A line break ends the row. -/
def advance (p : Point) (c : Char) : Point :=
  if c = '\n' then ⟨p.row + 1, 0⟩ else ⟨p.row, p.column + c.utf8Size⟩

/-- Moves on until a number of bytes has been passed. -/
def moveOn (p : Point) : Nat → List Char → Point
  | 0, _ => p
  | _, [] => p
  | n + 1, c :: cs => (p.advance c).moveOn (n + 1 - c.utf8Size) cs

/-- Where the reader stands when it has reached an offset. -/
def ofOffset (source : List Char) (offset : Nat) : Point := moveOn ⟨0, 0⟩ offset source

end Point
end SentinelWrap.Go
