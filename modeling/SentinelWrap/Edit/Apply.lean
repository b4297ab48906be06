import SentinelWrap.Edit
import SentinelWrap.Error
/-!
Edits applied to a text. They may come in any order and more than once; what does not fit the text
or touches the same bytes twice is refused.
-/
namespace SentinelWrap.Edit

/-- Repetitions that stand next to each other are dropped. -/
def dedup : List Edit → List Edit
  | [] => []
  | [e] => [e]
  | a :: b :: rest => if a = b then dedup (b :: rest) else a :: dedup (b :: rest)

def sorted (edits : List Edit) : List Edit := dedup (edits.mergeSort le)

/-- The first two neighbours that cannot both be applied. -/
def clash? : List Edit → Option (Edit × Edit)
  | a :: b :: rest => if a.clashes b then some (a, b) else clash? (b :: rest)
  | _ => none

/-- The rest of a text from the byte `cursor` on, with the edits made. -/
def splice (cursor : Nat) (rest : List Char) : List Edit → List Char
  | [] => rest
  | e :: edits =>
    match Text.splitAt? (e.range.start - cursor) rest with
    | none => rest
    | some (kept, after) =>
      match Text.splitAt? e.range.length after with
      | none => rest
      | some (_, after) => kept ++ e.newText.toList ++ splice e.range.stop after edits

/-- Of two faults, a range that does not fit is told before a clash, and the first in order before
the others. -/
def applyAll (text : String) (edits : List Edit) : Except Error String :=
  let source := text.toList
  let edits := sorted edits
  match edits.find? (fun e => !e.fits source) with
  | some e => throw (.invalidEdit e.range (Text.size source))
  | none =>
    match clash? edits with
    | some (a, b) => throw (.overlappingEdits a.range b.range)
    | none => return String.ofList (splice 0 source edits)

end SentinelWrap.Edit
