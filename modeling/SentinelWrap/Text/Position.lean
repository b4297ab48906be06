import SentinelWrap.Text.Span
/-! Lines and columns of byte offsets. Both count from one, and columns count bytes. -/
namespace SentinelWrap

structure Position where
  offset : Nat
  line : Nat
  column : Nat
deriving DecidableEq, Repr

def Position.render (p : Position) : String := s!"{p.line}:{p.column}"

/-- The offsets at which the lines of a text start, and its length in bytes. -/
structure LineTable where
  starts : Array Nat
  size : Nat
deriving DecidableEq, Repr

namespace LineTable

/-- The offset after each line break of a text that begins at byte `start`. -/
def breaksFrom (start : Nat) : List Char → List Nat
  | [] => []
  | c :: cs =>
    let next := start + c.utf8Size
    if c = '\n' then next :: breaksFrom next cs else breaksFrom next cs

def ofText (text : List Char) : LineTable where
  starts := (0 :: breaksFrom 0 text).toArray
  size := Text.size text

/-- Halves a range of entries until one is left. The upper half is kept if its first entry is not
above the offset. -/
def narrow (starts : Array Nat) (offset base size : Nat) (hsize : 0 < size)
    (hrange : base + size ≤ starts.size) : Fin starts.size :=
  if h : 1 < size then
    let half := size / 2
    have hmiddle : base + half < starts.size := by omega
    if offset < starts[base + half] then
      narrow starts offset base (size - half) (by omega) (by omega)
    else narrow starts offset (base + half) (size - half) (by omega) (by omega)
  else ⟨base, by omega⟩
termination_by size

/-- Where an offset stands among the starts, or else where it would have to be put. -/
def search (starts : Array Nat) (offset : Nat) : Except Nat Nat :=
  if h : 0 < starts.size then
    let index := narrow starts offset 0 starts.size h (by omega)
    if starts[index] = offset then .ok index
    else if starts[index] < offset then .error (index + 1)
    else .error index
  else .error 0

/-- The index of the line an offset stands on. An offset that starts no line stands on the one before
the place where it would have to be put. -/
def lineIndex (table : LineTable) (offset : Nat) : Nat :=
  match search table.starts offset with
  | .ok index => index
  | .error next => next - 1

/-- Offsets past the end stand for the end. -/
def position (table : LineTable) (offset : Nat) : Position :=
  let offset := min offset table.size
  let index := table.lineIndex offset
  { offset
    line := index + 1
    column := offset - table.starts.getD index 0 + 1 }

end LineTable
end SentinelWrap
