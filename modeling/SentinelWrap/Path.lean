import SentinelWrap.Text.Pieces
/-!
File paths as written. Two spellings are the same path if they have the same components, and paths
are ordered component by component.
-/
namespace SentinelWrap

structure Path where
  text : String
deriving DecidableEq, Repr

namespace Path

inductive Component
  | root
  | here
  | up
  | name (text : String)
deriving DecidableEq, Repr

namespace Component

def rank : Component → Nat
  | root => 0
  | here => 1
  | up => 2
  | name _ => 3

/-- The root, then `.`, then `..`, then names by their code points. -/
def compare : Component → Component → Ordering
  | name a, name b => Ord.compare a b
  | a, b => Ord.compare a.rank b.rank

end Component

def pieces (p : Path) : List (List Char) := Text.split (· == '/') p.text.toList

/-- A piece that stands for no component. -/
def isIdle (piece : List Char) : Bool := piece == [] || piece == ['.']

/-- The component a piece below the first stands for. -/
def component? (piece : List Char) : Option Component :=
  if isIdle piece then none
  else if piece == ['.', '.'] then some .up
  else some (.name (String.ofList piece))

/-- A leading `.` counts, every later one does not. -/
def components (p : Path) : List Component :=
  match p.pieces with
  | [] | [[]] => []
  | [] :: rest => .root :: rest.filterMap component?
  | ['.'] :: rest => .here :: rest.filterMap component?
  | pieces => pieces.filterMap component?

def compareComponents : List Component → List Component → Ordering
  | [], [] => .eq
  | [], _ :: _ => .lt
  | _ :: _, [] => .gt
  | a :: as, b :: bs => (a.compare b).then (compareComponents as bs)

def compare (p q : Path) : Ordering := compareComponents p.components q.components

/-- Not after, in the order of paths. -/
def le (p q : Path) : Bool := (p.compare q).isLE

/-- The same path, perhaps in another spelling. -/
def same (p q : Path) : Bool := p.components == q.components

def isAbsolute (p : Path) : Bool := p.text.toList.head? == some '/'

/-- The last component, if it is a name. -/
def fileName? (p : Path) : Option String :=
  match p.components.getLast? with
  | some (.name text) => some text
  | _ => none

/-- What follows the last dot of the file name; a dot at its front does not count. -/
def extension? (p : Path) : Option String := do
  let name ← p.fileName?
  match Text.split (· == '.') name.toList with
  | [] | [_] | [[], _] => none
  | pieces => pieces.getLast?.map String.ofList

/-- The pieces at the front that are no part of the path's body, and the body. -/
def leadAndBody (p : Path) : List (List Char) × List (List Char) :=
  match p.pieces with
  | [] | [[]] => ([], [])
  | [] :: rest => ([[]], rest)
  | ['.'] :: rest => ([['.']], rest)
  | pieces => ([], pieces)

def trimIdle (pieces : List (List Char)) : List (List Char) :=
  (pieces.reverse.dropWhile isIdle).reverse

def ofPieces (pieces : List (List Char)) : Path :=
  if pieces = [[]] then ⟨"/"⟩ else ⟨String.ofList (Text.join ['/'] pieces)⟩

/-- The path without its last component. The root and the empty path have no parent. -/
def parent? (p : Path) : Option Path :=
  let (lead, body) := p.leadAndBody
  match trimIdle body with
  | [] => if lead = [['.']] then some ⟨""⟩ else none
  | body => some (ofPieces (lead ++ trimIdle body.dropLast))

/-- The path and the directories above it, nearest first, at most `limit` of them. -/
def ancestors : (limit : Nat) → Path → List Path
  | 0, _ => []
  | limit + 1, p =>
    p :: match p.parent? with
      | some parent => ancestors limit parent
      | none => []

/-- A path below another one; an absolute path stands for itself. -/
def join (p q : Path) : Path :=
  if q.isAbsolute || p.text.isEmpty then q
  else if p.text.toList.getLast? == some '/' then ⟨p.text ++ q.text⟩
  else ⟨p.text ++ "/" ++ q.text⟩

end Path
end SentinelWrap
