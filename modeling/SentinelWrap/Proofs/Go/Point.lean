import SentinelWrap.Go.Point
import SentinelWrap.Proofs.Text.Position

/-! The rows and columns that the reader of a source counts are those of the table of line starts. -/
namespace SentinelWrap.Go.Point
open Text (bytes newline size)

/-- A point after some bytes: it counts their line breaks, and the bytes since the last one. -/
def Counts (p : Point) (passed : List UInt8) : Prop :=
  p.row = passed.count newline ∧ p.column = (passed.rtakeWhile (· != newline)).length

theorem Counts.advance {p : Point} {passed : List UInt8} (h : p.Counts passed) (c : Char) :
    (p.advance c).Counts (passed ++ String.utf8EncodeChar c) := by
  obtain ⟨hrow, hcolumn⟩ := h
  unfold Point.advance
  split_ifs with hc
  · have hbytes : String.utf8EncodeChar '\n' = [newline] := rfl
    rw [hc, hbytes]
    constructor
    · simp [hrow]
    · rw [List.rtakeWhile_concat_neg _ _ _ (by simp)]
      rfl
  · have hnewline := Text.newline_notMem hc
    constructor
    · rw [List.count_append, List.count_eq_zero.mpr hnewline, hrow, Nat.add_zero]
    · rw [LineTable.rtakeWhile_append hnewline, List.length_append, String.length_utf8EncodeChar, hcolumn]

theorem Counts.foldl {p : Point} {passed : List UInt8} (h : p.Counts passed) (text : List Char) :
    (text.foldl Point.advance p).Counts (passed ++ bytes text) := by
  induction text generalizing p passed with
  | nil =>
    rw [show bytes [] = [] from rfl, List.append_nil]
    exact h
  | cons c text ih =>
    have hbytes : bytes (c :: text) = String.utf8EncodeChar c ++ bytes text := rfl
    rw [List.foldl_cons, hbytes, ← List.append_assoc]
    exact ih (h.advance c)

/-- Moving on by the size of a text passes its characters. -/
theorem moveOn_append (p : Point) (before after : List Char) :
    p.moveOn (size before) (before ++ after) = before.foldl advance p := by
  induction before generalizing p with
  | nil => cases after <;> rfl
  | cons c before ih =>
    have hsize : size (c :: before) = c.utf8Size + size before := rfl
    obtain ⟨n, hn⟩ := Nat.exists_eq_add_of_lt c.utf8Size_pos
    have hsucc : size (c :: before) = n + size before + 1 := by omega
    have hrest : n + size before + 1 - c.utf8Size = size before := by omega
    rw [hsucc, List.cons_append, moveOn, hrest, List.foldl_cons]
    exact ih (p.advance c)

/-- The reader and the table agree on every place between two characters. -/
theorem position_eq (before after : List Char) :
    let point := ofOffset (before ++ after) (size before)
    (LineTable.ofText (before ++ after)).position (size before) =
      ⟨size before, point.row + 1, point.column + 1⟩ := by
  have hpoint : ofOffset (before ++ after) (size before) = before.foldl advance ⟨0, 0⟩ :=
    moveOn_append _ before after
  have hstart : (⟨0, 0⟩ : Point).Counts [] := ⟨rfl, rfl⟩
  obtain ⟨hrow, hcolumn⟩ := hstart.foldl before
  have htake : (bytes (before ++ after)).take (size before) = bytes before := by
    rw [Text.bytes_append, ← Text.length_bytes, List.take_left]
  rw [LineTable.position_of_le (by simp), htake]
  simp only [hpoint, hrow, hcolumn, List.nil_append]

theorem row_advance_le (p : Point) (c : Char) :
    p.row ≤ (p.advance c).row ∧ (p.advance c).row ≤ p.row + 1 := by
  unfold advance
  split_ifs <;> constructor <;> simp

theorem row_le_moveOn (p : Point) (n : Nat) (text : List Char) : p.row ≤ (p.moveOn n text).row := by
  induction text generalizing p n with
  | nil => cases n <;> exact Nat.le_refl _
  | cons c text ih =>
    cases n with
    | zero => exact Nat.le_refl _
    | succ n => exact Nat.le_trans (p.row_advance_le c).1 (ih _ _)

theorem row_moveOn_le (p : Point) (n : Nat) (text : List Char) :
    (p.moveOn n text).row ≤ p.row + n := by
  induction text generalizing p n with
  | nil => cases n <;> exact Nat.le_add_right _ _
  | cons c text ih =>
    cases n with
    | zero => exact Nat.le_refl _
    | succ n =>
      have hlater := ih (p.advance c) (n + 1 - c.utf8Size)
      have hstep := (p.row_advance_le c).2
      have hpos := c.utf8Size_pos
      rw [moveOn]
      omega

/-- A reader that moves on further is not in an earlier row. -/
theorem row_moveOn_mono (p : Point) {m n : Nat} (h : m ≤ n) (text : List Char) :
    (p.moveOn m text).row ≤ (p.moveOn n text).row := by
  induction text generalizing p m n with
  | nil => cases m <;> cases n <;> exact Nat.le_refl _
  | cons c text ih =>
    cases m with
    | zero => exact row_le_moveOn p n (c :: text)
    | succ m =>
      cases n with
      | zero => omega
      | succ n => exact ih (p.advance c) (by omega)

private theorem row_foldl (p : Point) (text : List Char) :
    (text.foldl advance p).row = p.row + text.count '\n' := by
  induction text generalizing p with
  | nil => rfl
  | cons c text ih =>
    rw [List.foldl_cons, ih, List.count_cons]
    by_cases hc : c = '\n'
    · simp only [advance, hc, if_true, beq_self_eq_true]
      omega
    · simp [advance, hc]

/-- The row where a text goes on after its first part. -/
theorem row_ofOffset (before after : List Char) :
    (ofOffset (before ++ after) (size before)).row = before.count '\n' := by
  rw [ofOffset, moveOn_append, row_foldl, Nat.zero_add]

end SentinelWrap.Go.Point
