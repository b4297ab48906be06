import Mathlib.Data.Nat.Dist
import SentinelWrap.Proofs.Go.Point
import SentinelWrap.Syntax.Render
import SentinelWrap.Text.Pieces

/-! How the specs of an import group are laid out: each on a line of its own, and one blank line where
they were written apart. In a group that is laid out so, the specs stand apart where they did before,
so it is laid out in the same way again. -/
namespace SentinelWrap

namespace Text

theorem split_line {line : List Char} (h : '\n' ∉ line) (rest : List Char) :
    split (· == '\n') (line ++ '\n' :: rest) = line :: split (· == '\n') rest := by
  induction line with
  | nil => rfl
  | cons c line ih =>
    obtain ⟨hc, hline⟩ := List.ne_and_not_mem_of_not_mem_cons h
    have hc' : (c == '\n') = false := by simpa using hc.symm
    simp [split, hc', ih hline]

end Text

namespace Node
open Text (size)

variable {spec added : ImportSpec} {specs specs' : List ImportSpec}

/-- The line break before a spec that was written apart from the last one. -/
def gapBefore (previous : Option Nat) (spec : ImportSpec) : List Char :=
  if isApart previous spec.line then ['\n'] else []

theorem toList_renderSpecs_cons (previous : Option Nat) (spec : ImportSpec) (specs : List ImportSpec) :
    (renderSpecs previous (spec :: specs)).toList =
      gapBefore previous spec ++ '\t' :: (spec.render.toList ++
        '\n' :: (renderSpecs (spec.line <|> previous) specs).toList) := by
  rw [renderSpecs, gapBefore]
  split_ifs <;> simp

def offsetsFrom : Option Nat → Nat → List ImportSpec → List Nat
  | _, _, [] => []
  | previous, offset, spec :: specs =>
    let start := offset + size (gapBefore previous spec) + 1
    start :: offsetsFrom (spec.line <|> previous) (start + size spec.render.toList + 1) specs

def linesFrom : Option Nat → Nat → List ImportSpec → List Nat
  | _, _, [] => []
  | previous, line, spec :: specs =>
    let start := line + if isApart previous spec.line then 1 else 0
    start :: linesFrom (spec.line <|> previous) (start + 1) specs

/-- The offsets of printed specs stand on their lines. -/
theorem lines_offsetsFrom (hspecs : ∀ spec ∈ specs, '\n' ∉ spec.render.toList)
    (previous : Option Nat) (before after : List Char) :
    (offsetsFrom previous (size before) specs).map (fun offset => (Go.Point.ofOffset
        (before ++ ((renderSpecs previous specs).toList ++ after)) offset).row + 1) =
      linesFrom previous (before.count '\n' + 1) specs := by
  induction specs generalizing previous before with
  | nil => rfl
  | cons spec specs ih =>
    obtain ⟨hspec, hspecs⟩ := List.forall_mem_cons.mp hspecs
    let front := before ++ (gapBefore previous spec ++ ['\t'])
    let line := front ++ (spec.render.toList ++ ['\n'])
    have htext : before ++ ((renderSpecs previous (spec :: specs)).toList ++ after) =
        line ++ ((renderSpecs (spec.line <|> previous) specs).toList ++ after) := by
      simp [line, front, toList_renderSpecs_cons]
    have hsize : size front = size before + size (gapBefore previous spec) + 1 := by
      simp [front, Nat.add_assoc, Char.utf8Size]
    have hsize' : size line = size front + size spec.render.toList + 1 := by
      simp [line, Nat.add_assoc, Char.utf8Size]
    have hcount : front.count '\n' + 1 =
        before.count '\n' + 1 + if isApart previous spec.line then 1 else 0 := by
      simp only [front, gapBefore, List.count_append]
      split_ifs <;> simp
    have hcount' : line.count '\n' = front.count '\n' + 1 := by
      simp [line, List.count_eq_zero.mpr hspec]
    rw [offsetsFrom, linesFrom, List.map_cons, ← hsize, ← hsize', ← hcount, ← hcount', htext]
    refine List.cons_eq_cons.mpr ⟨?_, ih hspecs _ line⟩
    rw [hcount', show line = front ++ _ from rfl, List.append_assoc]
    exact congrArg Nat.succ (Go.Point.row_ofOffset _ _)

/-- Two specs the lines of which differ by two or more. -/
def Spaced (a b : ImportSpec) : Prop := ∃ m ∈ a.line, ∃ n ∈ b.line, 2 ≤ Nat.dist m n

instance decidableSpaced (a b : ImportSpec) : Decidable (Spaced a b) :=
  inferInstanceAs (Decidable (∃ m ∈ a.line, ∃ n ∈ b.line, 2 ≤ Nat.dist m n))

/-- Specs on lines of their own, with a blank line between those that are spaced. -/
def spacedLines : List ImportSpec → List (List Char)
  | [] => []
  | [spec] => ['\t' :: spec.render.toList]
  | a :: b :: specs =>
    ('\t' :: a.render.toList) :: (if Spaced a b then [[]] else []) ++ spacedLines (b :: specs)

/-- A spec before another one: on the same line or a later one, of a number that has a next one. -/
def InOrder (a b : ImportSpec) : Prop :=
  ∃ m n, a.line = some m ∧ b.line = some n ∧ m ≤ n ∧ m + 1 < UInt64.size

theorem InOrder.isApart_iff {a b : ImportSpec} (h : InOrder a b) :
    isApart a.line b.line = true ↔ Spaced a b := by
  obtain ⟨m, n, ha, hb, hle, hlt⟩ := h
  simp only [isApart, Spaced, ha, hb, nextLine, Nat.mod_eq_of_lt hlt, decide_eq_true_eq,
    Option.mem_def, Option.some.injEq, exists_eq_left', Nat.dist_eq_sub_of_le hle]
  omega

/-- The lines of a group that is printed with one more spec. -/
theorem split_renderSpecs (hchain : specs.IsChain InOrder) (hlines : ∀ spec ∈ specs, spec.line.isSome)
    (hspecs : ∀ spec ∈ specs, '\n' ∉ spec.render.toList) (hadded : added.line = none)
    (hline : '\n' ∉ added.render.toList) (previous : Option Nat) :
    Text.split (· == '\n') ((renderSpecs previous (specs ++ [added])).toList ++ [')']) =
      (if specs.head?.any (isApart previous ·.line) then [[]] else []) ++
      spacedLines specs ++ ['\t' :: added.render.toList, [')']] := by
  induction specs generalizing previous with
  | nil =>
    have hgap : gapBefore previous added = [] := by
      cases previous <;> simp [gapBefore, hadded, isApart]
    rw [List.nil_append, toList_renderSpecs_cons, hgap]
    have hsplit := Text.split_line (by simpa using hline : '\n' ∉ '\t' :: added.render.toList) [')']
    simpa [renderSpecs, spacedLines, Text.split] using hsplit
  | cons a specs ih =>
    obtain ⟨hline', hlines⟩ := List.forall_mem_cons.mp hlines
    obtain ⟨hspec, hspecs⟩ := List.forall_mem_cons.mp hspecs
    have hlater := ih hchain.of_cons hlines hspecs a.line
    have hprevious : (a.line <|> previous) = a.line := by
      obtain ⟨line, ha⟩ := Option.isSome_iff_exists.mp hline'
      rw [ha]
      rfl
    have hgap (rest : List Char) : Text.split (· == '\n') (gapBefore previous a ++ rest) =
        (if isApart previous a.line then [[]] else []) ++ Text.split (· == '\n') rest := by
      rw [gapBefore]
      split_ifs <;> rfl
    have hfirst := Text.split_line (by simpa using hspec : '\n' ∉ '\t' :: a.render.toList)
      ((renderSpecs a.line (specs ++ [added])).toList ++ [')'])
    have hrest : Text.split (· == '\n') ((renderSpecs a.line (specs ++ [added])).toList ++ [')']) =
        (spacedLines (a :: specs)).tail ++ ['\t' :: added.render.toList, [')']] := by
      rw [hlater]
      cases specs with
      | nil => rfl
      | cons b specs =>
        have hapart := (List.isChain_cons_cons.mp hchain).1.isApart_iff
        simp [spacedLines, hapart]
    have hhead : spacedLines (a :: specs) =
        ('\t' :: a.render.toList) :: (spacedLines (a :: specs)).tail := by
      cases specs <;> rfl
    rw [List.cons_append, toList_renderSpecs_cons, hprevious, List.append_assoc, hgap, hhead]
    simp only [List.cons_append, List.append_assoc] at hfirst ⊢
    rw [hfirst, hrest]
    rfl

/-- Specs on the lines where they are printed are printed so again. -/
theorem renderSpecs_linesFrom (hspecs : List.Forall₂ (fun a b => b.render = a.render) specs specs')
    {previous : Option Nat} {line : Nat}
    (hlines : specs'.map ImportSpec.line = (linesFrom previous (line + 1) specs).map some)
    (hbound : line + 2 * specs.length < UInt64.size) :
    renderSpecs (some line) specs' = renderSpecs previous specs := by
  induction hspecs generalizing previous line with
  | nil => rfl
  | @cons a b specs specs' hrender _ ih =>
    rw [linesFrom, List.map_cons, List.map_cons] at hlines
    obtain ⟨hline, hlines⟩ := List.cons.inj hlines
    rw [List.length_cons] at hbound
    have hnext : nextLine line = line + 1 := Nat.mod_eq_of_lt (by omega)
    have hapart : isApart (some line) b.line = isApart previous a.line := by
      rw [hline, isApart, hnext]
      split_ifs with h <;> simp [h]
    have hlater := ih hlines (by split_ifs <;> omega)
    rw [renderSpecs, renderSpecs, hapart, hrender, hline]
    exact congrArg _ hlater

/-- A group the specs of which stand on the lines where they are printed is printed so again. -/
theorem renderSpecs_none_linesFrom
    (hspecs : List.Forall₂ (fun a b => b.render = a.render) specs specs') {line : Nat}
    (hlines : specs'.map ImportSpec.line = (linesFrom none line specs).map some)
    (hbound : line + 2 * specs.length < UInt64.size) :
    renderSpecs none specs' = renderSpecs none specs := by
  cases hspecs with
  | nil => rfl
  | @cons a b specs specs' hrender hspecs =>
    rw [linesFrom, List.map_cons, List.map_cons] at hlines
    obtain ⟨hline, hlines⟩ := List.cons.inj hlines
    rw [List.length_cons] at hbound
    rw [renderSpecs, renderSpecs, hrender, hline]
    exact congrArg _ (renderSpecs_linesFrom hspecs hlines (by simp [isApart]; omega))

end Node
end SentinelWrap
