/-!
Lexeme recognition. A scan says how many characters at the front of a text form a lexeme of its
class; what it takes and what it leaves are then a prefix and the rest of the same text.
-/
namespace SentinelWrap.Go

/-- The number of leading characters that form a lexeme, if any do. -/
abbrev Scan := List Char → Option Nat

namespace Scan

/-- One character of a class. -/
def one (p : Char → Bool) : Scan
  | c :: _ => if p c then some 1 else none
  | [] => none

def char (c : Char) : Scan := one (· == c)

def andThen (a b : Scan) : Scan := fun cs => do
  let n ← a cs
  let m ← b (cs.drop n)
  return n + m

/-- The lexemes of the scans in a row. -/
def all : List Scan → Scan
  | [] => fun _ => some 0
  | s :: ss => s.andThen (all ss)

/-- Takes nothing where the scan fails. -/
def opt (s : Scan) : Scan := fun cs => some ((s cs).getD 0)

/-- The longer of two optional lengths. -/
def longer : Option Nat → Option Nat → Option Nat
  | some n, some m => some (max n m)
  | some n, none => some n
  | none, r => r

/-- The longest lexeme that some scan finds. -/
def longest (ss : List Scan) : Scan := fun cs => ss.foldl (fun r s => longer r (s cs)) none

/-- How many characters continue a row of digits; single low lines may stand between them. -/
def digitsTail (p : Char → Bool) : List Char → Nat
  | '_' :: c :: cs => if p c then digitsTail p cs + 2 else 0
  | c :: cs => if p c then digitsTail p cs + 1 else 0
  | [] => 0

/-- One or more digits of a class, with single low lines between them. -/
def digits (p : Char → Bool) : Scan
  | c :: cs => if p c then some (digitsTail p cs + 1) else none
  | [] => none

end Scan
end SentinelWrap.Go
