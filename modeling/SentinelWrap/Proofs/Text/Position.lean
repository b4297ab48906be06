import Mathlib.Data.List.DropRight
import Mathlib.Data.Prod.Lex
import SentinelWrap.Proofs.Text.Split
import SentinelWrap.Text.Position

/-! Lines and columns against the bytes of a text. The table of line starts is increasing and begins
with zero, so a binary search ends at the last start that is not above an offset; how many starts there
are up to it, and how far it is away, can be counted in the bytes before the offset. -/
namespace SentinelWrap

namespace Text

def bytes (text : List Char) : List UInt8 := text.flatMap String.utf8EncodeChar

def newline : UInt8 := 10

@[simp] theorem length_bytes (text : List Char) : (bytes text).length = size text := by
  induction text with
  | nil => rfl
  | cons c text ih =>
    rw [bytes, List.flatMap_cons, List.length_append, String.length_utf8EncodeChar, size_cons, ← ih]
    rfl

theorem bytes_append (a b : List Char) : bytes (a ++ b) = bytes a ++ bytes b := List.flatMap_append

/-- No character but the line break has its byte: the other characters of one byte are that byte, and
the bytes of longer ones have their highest bit set. -/
theorem newline_notMem {c : Char} (h : c ≠ '\n') : newline ∉ String.utf8EncodeChar c := by
  have hval : c.val.toNat ≠ 10 := fun hc => h (Char.ext (UInt32.toNat_inj.mp hc))
  have hbyte {n : Nat} (hn : n < 256) (hne : n ≠ 10) : newline ≠ UInt8.ofNat n := by
    intro heq
    have := congrArg UInt8.toNat heq
    rw [UInt8.toNat_ofNat_of_lt' hn] at this
    exact hne this.symm
  unfold String.utf8EncodeChar
  dsimp only
  split_ifs <;> simp only [List.mem_cons, List.not_mem_nil, or_false, not_or]
  · exact hbyte (by omega) hval
  · exact ⟨hbyte (by omega) (by omega), hbyte (by omega) (by omega)⟩
  · exact ⟨hbyte (by omega) (by omega), hbyte (by omega) (by omega), hbyte (by omega) (by omega)⟩
  · exact ⟨hbyte (by omega) (by omega), hbyte (by omega) (by omega), hbyte (by omega) (by omega),
      hbyte (by omega) (by omega)⟩

end Text

namespace LineTable
open Text (bytes newline)

/-- The offset after each line break among bytes from an offset on. -/
def breaksAfter (start : Nat) : List UInt8 → List Nat
  | [] => []
  | b :: bs => if b = newline then (start + 1) :: breaksAfter (start + 1) bs
    else breaksAfter (start + 1) bs

private theorem breaksAfter_append {as : List UInt8} (h : newline ∉ as) (start : Nat)
    (bs : List UInt8) :
    breaksAfter start (as ++ bs) = breaksAfter (start + as.length) bs := by
  induction as generalizing start with
  | nil => rfl
  | cons a as ih =>
    obtain ⟨ha, has⟩ := List.ne_and_not_mem_of_not_mem_cons h
    rw [List.cons_append, breaksAfter, if_neg ha.symm, ih has, List.length_cons]
    congr 1
    omega

theorem breaksFrom_eq (start : Nat) (text : List Char) :
    breaksFrom start text = breaksAfter start (bytes text) := by
  induction text generalizing start with
  | nil => rfl
  | cons c text ih =>
    rw [bytes, List.flatMap_cons, ← bytes, breaksFrom]
    split_ifs with hc
    · subst hc
      rw [ih]
      rfl
    · rw [breaksAfter_append (Text.newline_notMem hc), String.length_utf8EncodeChar, ih]

theorem mem_breaksAfter {start x : Nat} {bs : List UInt8} :
    x ∈ breaksAfter start bs ↔ ∃ j, bs[j]? = some newline ∧ x = start + j + 1 := by
  induction bs generalizing start with
  | nil => simp [breaksAfter]
  | cons b bs ih =>
    have hcons : (∃ j, (b :: bs)[j]? = some newline ∧ x = start + j + 1) ↔
        b = newline ∧ x = start + 1 ∨ ∃ j, bs[j]? = some newline ∧ x = start + 1 + j + 1 := by
      constructor
      · rintro ⟨_ | j, hj, rfl⟩
        · exact .inl ⟨Option.some.inj hj, rfl⟩
        · exact .inr ⟨j, hj, by omega⟩
      · rintro (⟨rfl, rfl⟩ | ⟨j, hj, rfl⟩)
        · exact ⟨0, rfl, rfl⟩
        · exact ⟨j + 1, hj, by omega⟩
    rw [hcons, ← ih, breaksAfter]
    split_ifs with hb <;> simp [hb]

private theorem pairwise_breaksAfter (start : Nat) (bs : List UInt8) :
    (breaksAfter start bs).Pairwise (· < ·) := by
  induction bs generalizing start with
  | nil => exact .nil
  | cons b bs ih =>
    rw [breaksAfter]
    split_ifs with hb
    · refine .cons (fun x hx => ?_) (ih _)
      obtain ⟨j, -, rfl⟩ := mem_breaksAfter.mp hx
      omega
    · exact ih _

/-- There are as many line starts up to an offset as line breaks before it. -/
theorem countP_breaksAfter (start n : Nat) (bs : List UInt8) :
    (breaksAfter start bs).countP (· ≤ start + n) = (bs.take n).count newline := by
  induction bs generalizing start n with
  | nil => simp [breaksAfter]
  | cons b bs ih =>
    cases n with
    | zero =>
      rw [List.countP_eq_zero.mpr]
      · rfl
      · intro x hx
        obtain ⟨j, -, rfl⟩ := mem_breaksAfter.mp hx
        simp only [decide_eq_true_eq]
        omega
    | succ n =>
      have hrest := ih (start + 1) n
      rw [Nat.add_right_comm, Nat.add_assoc] at hrest
      rw [breaksAfter, List.take_succ_cons, List.count_cons, ← hrest]
      by_cases hb : b = newline
      · rw [if_pos hb, if_pos (by simpa using hb), List.countP_cons_of_pos (by simp)]
      · rw [if_neg hb, if_neg (by simpa using hb)]
        rfl

theorem starts_ofText (text : List Char) :
    (ofText text).starts.toList = 0 :: breaksAfter 0 (bytes text) := by
  rw [ofText, breaksFrom_eq]

/-- The last start that is not above an offset. -/
structure Reaches (starts : Array Nat) (offset index : Nat) : Prop where
  lt : index < starts.size
  le : starts[index] ≤ offset
  above : ∀ i (hi : i < starts.size), index < i → offset < starts[i]

structure Increasing (starts : Array Nat) : Prop where
  pos : 0 < starts.size
  zero : starts[0] = 0
  lt : ∀ i j (hi : i < j) (hj : j < starts.size), starts[i] < starts[j]

theorem increasing_ofText (text : List Char) : Increasing (ofText text).starts := by
  have hsorted : (ofText text).starts.toList.Pairwise (· < ·) := by
    rw [starts_ofText]
    refine .cons (fun x hx => ?_) (pairwise_breaksAfter 0 _)
    obtain ⟨j, -, rfl⟩ := mem_breaksAfter.mp hx
    omega
  refine ⟨by simp [ofText], by simp [ofText], fun i j hi hj => ?_⟩
  exact List.pairwise_iff_getElem.mp hsorted i j (Nat.lt_trans hi hj) hj hi

variable {starts : Array Nat} {offset : Nat}

/-- Narrowing keeps a range that begins at or below the offset and ends before all that is above. -/
theorem reaches_narrow (h : Increasing starts) {base size : Nat} (hsize : 0 < size)
    (hrange : base + size ≤ starts.size) (hbase : starts[base] ≤ offset)
    (habove : ∀ i (hi : i < starts.size), base + size ≤ i → offset < starts[i]) :
    Reaches starts offset (narrow starts offset base size hsize hrange) := by
  fun_induction narrow starts offset base size hsize hrange with
  | case1 base size _ _ hlt half hmiddle hless ih =>
    refine ih hbase fun i hi hle => ?_
    rcases Nat.eq_or_lt_of_le (show base + half ≤ i by omega) with rfl | hgt
    · exact hless
    · exact Nat.lt_trans hless (h.lt _ _ hgt hi)
  | case2 base size _ _ hlt half hmiddle hle ih =>
    exact ih (by omega) fun i hi hle => habove i hi (by omega)
  | case3 base size _ _ hone =>
    refine ⟨by omega, hbase, fun i hi hlt => habove i hi ?_⟩
    change base < i at hlt
    omega

/-- The search finds the last start that is not above an offset, and tells whether it is there. -/
theorem exists_search (h : Increasing starts) (offset : Nat) : ∃ index, Reaches starts offset index ∧
    (search starts offset = .ok index ∨ search starts offset = .error (index + 1)) := by
  have hrange : 0 + starts.size ≤ starts.size := by omega
  have hreaches : Reaches starts offset (narrow starts offset 0 starts.size h.pos hrange) :=
    reaches_narrow h h.pos hrange (by rw [h.zero]; omega) fun i hi hle => by omega
  refine ⟨_, hreaches, ?_⟩
  have hle := hreaches.le
  unfold search
  rw [dif_pos h.pos]
  dsimp only [Fin.getElem_fin]
  split_ifs with heq hlt
  · exact .inl rfl
  · exact .inr rfl
  · omega

theorem reaches_lineIndex {table : LineTable} (h : Increasing table.starts) (offset : Nat) :
    Reaches table.starts offset (table.lineIndex offset) := by
  obtain ⟨index, hreaches, hsearch | hsearch⟩ := exists_search h offset
  · rwa [lineIndex, hsearch]
  · rwa [lineIndex, hsearch]

/-- As many starts are not above an offset as there are up to the one that the search finds. -/
theorem Reaches.countP_eq (h : Increasing starts) {index : Nat} (hindex : Reaches starts offset index) :
    starts.toList.countP (· ≤ offset) = index + 1 := by
  have hsplit := List.take_append_drop (index + 1) starts.toList
  have hlow : ∀ x ∈ starts.toList.take (index + 1), x ≤ offset := by
    intro x hx
    obtain ⟨i, hi, rfl⟩ := List.mem_take_iff_getElem.mp hx
    have hlt := hindex.lt
    have hle := hindex.le
    simp only [Array.length_toList] at hi
    rcases Nat.eq_or_lt_of_le (show i ≤ index by omega) with rfl | hlt'
    · simpa using hle
    · have := h.lt i index hlt' hlt
      simp only [Array.getElem_toList]
      omega
  have hhigh : ∀ x ∈ starts.toList.drop (index + 1), ¬ x ≤ offset := by
    intro x hx
    obtain ⟨i, hi, rfl⟩ := List.mem_drop_iff_getElem.mp hx
    simp only [Array.length_toList] at hi
    have := hindex.above (index + 1 + i) (by omega) (by omega)
    simpa using this
  rw [← hsplit, List.countP_append, List.countP_eq_length.mpr (by simpa using hlow),
    List.countP_eq_zero.mpr (by simpa using hhigh), List.length_take, Array.length_toList]
  have := hindex.lt
  omega

theorem rtakeWhile_append {front line : List UInt8} (hline : newline ∉ line) :
    (front ++ line).rtakeWhile (· != newline) = front.rtakeWhile (· != newline) ++ line := by
  have hline' : ∀ b ∈ line.reverse, (b != newline) = true := by
    intro b hb
    rw [bne_iff_ne]
    rintro rfl
    exact hline (List.mem_reverse.mp hb)
  rw [List.rtakeWhile, List.reverse_append, List.takeWhile_append_of_pos hline', List.reverse_append,
    List.reverse_reverse]
  rfl

/-- The bytes that follow the last line break of a row. -/
theorem rtakeWhile_eq {front line : List UInt8} (hfront : front = [] ∨ front.getLast? = some newline)
    (hline : newline ∉ line) : (front ++ line).rtakeWhile (· != newline) = line := by
  have hstop : front.rtakeWhile (· != newline) = [] := by
    rcases hfront with rfl | hlast
    · rfl
    · obtain ⟨front, rfl⟩ := List.getLast?_eq_some_iff.mp hlast
      exact List.rtakeWhile_concat_neg _ _ _ (by simp)
  rw [rtakeWhile_append hline, hstop, List.nil_append]

variable {text : List Char} {index : Nat}

theorem Reaches.count_eq (h : Reaches (ofText text).starts offset index) :
    ((bytes text).take offset).count newline = index := by
  have hcount := h.countP_eq (increasing_ofText text)
  rw [starts_ofText, List.countP_cons_of_pos (by simp)] at hcount
  have hbreaks := countP_breaksAfter 0 offset (bytes text)
  rw [Nat.zero_add] at hbreaks
  omega

theorem Reaches.rtakeWhile_length (h : Reaches (ofText text).starts offset index)
    (hoffset : offset ≤ Text.size text) (hlt : index < (ofText text).starts.size) :
    (((bytes text).take offset).rtakeWhile (· != newline)).length =
      offset - (ofText text).starts[index] := by
  have hle := h.le
  generalize hstart : (ofText text).starts[index] = start at hle
  have hlength : ((bytes text).take offset).length = offset := by
    rw [List.length_take, Text.length_bytes, Nat.min_eq_left hoffset]
  have hmem {x : Nat} : x ∈ (ofText text).starts.toList ↔
      x = 0 ∨ ∃ j, (bytes text)[j]? = some newline ∧ x = j + 1 := by
    simp [starts_ofText, mem_breaksAfter]
  have hfront : ((bytes text).take offset).take start = [] ∨
      (((bytes text).take offset).take start).getLast? = some newline := by
    have hstart' : start ∈ (ofText text).starts.toList := by
      rw [← hstart]
      exact Array.getElem_mem_toList hlt
    rcases hmem.mp hstart' with rfl | ⟨j, hj, rfl⟩
    · exact .inl rfl
    · rw [List.take_take, Nat.min_eq_left hle, List.getLast?_take, if_neg (by omega),
        Nat.add_sub_cancel, hj]
      exact .inr rfl
  have hline : newline ∉ ((bytes text).take offset).drop start := by
    intro hnewline
    obtain ⟨j, hj, hbyte⟩ := List.mem_drop_iff_getElem.mp hnewline
    rw [List.getElem_take] at hbyte
    have hlater : start + j + 1 ∈ (ofText text).starts.toList :=
      hmem.mpr (.inr ⟨start + j, by rw [← hbyte]; exact List.getElem?_eq_getElem _, rfl⟩)
    obtain ⟨i, hi, heq⟩ := Array.getElem_of_mem (Array.mem_toList_iff.mp hlater)
    rcases Nat.lt_trichotomy i index with hlt' | rfl | hgt
    · have := (increasing_ofText text).lt i index hlt' hlt
      omega
    · omega
    · have := h.above i hi hgt
      omega
  have hsplit := rtakeWhile_eq hfront hline
  rw [List.take_append_drop] at hsplit
  rw [hsplit, List.length_drop, hlength]

theorem Reaches.getD_le (h : Reaches starts offset index) : starts.getD index 0 ≤ offset := by
  have hle := h.le
  simpa [Array.getD, h.lt] using hle

theorem position_of_le (hoffset : offset ≤ Text.size text) :
    (ofText text).position offset =
      ⟨offset, ((bytes text).take offset).count newline + 1,
        (((bytes text).take offset).rtakeWhile (· != newline)).length + 1⟩ := by
  have hreaches := reaches_lineIndex (increasing_ofText text) offset
  have hmin : min offset (ofText text).size = offset := Nat.min_eq_left hoffset
  rw [hreaches.rtakeWhile_length hoffset hreaches.lt, hreaches.count_eq, position, hmin]
  simp [Array.getD, hreaches.lt]

theorem position_min (table : LineTable) (offset : Nat) :
    table.position offset = table.position (min offset table.size) := by
  simp [position]

def offset? (table : LineTable) (line column : Nat) : Option Nat :=
  table.starts[line - 1]?.map (· + (column - 1))

theorem offset?_position (hoffset : offset ≤ Text.size text) :
    (ofText text).offset? ((ofText text).position offset).line
      ((ofText text).position offset).column = some offset := by
  have hreaches := reaches_lineIndex (increasing_ofText text) offset
  have hmin : min offset (ofText text).size = offset := Nat.min_eq_left hoffset
  have hle := hreaches.le
  simp only [offset?, position, hmin, Nat.add_sub_cancel, Array.getD, hreaches.lt, dif_pos,
    Array.getElem?_eq_getElem hreaches.lt, Option.map_some, Option.some.injEq]
  exact Nat.add_sub_cancel' hle

/-- A later offset stands on a later line, or further right on the same one. -/
theorem position_lt {a b : Nat} (hab : a < b) (hb : b ≤ Text.size text) :
    toLex (((ofText text).position a).line, ((ofText text).position a).column) <
      toLex (((ofText text).position b).line, ((ofText text).position b).column) := by
  have ha := reaches_lineIndex (increasing_ofText text) a
  have hb' := reaches_lineIndex (increasing_ofText text) b
  have hle := ha.le
  have hstart := ha.getD_le
  have hmin {o : Nat} (ho : o ≤ Text.size text) : min o (ofText text).size = o := Nat.min_eq_left ho
  have hindex : (ofText text).lineIndex a ≤ (ofText text).lineIndex b := by
    by_contra hlt
    have := hb'.above _ ha.lt (by omega)
    omega
  rw [Prod.Lex.toLex_lt_toLex]
  simp only [position, hmin hb, hmin (show a ≤ Text.size text by omega)]
  rcases Nat.eq_or_lt_of_le hindex with heq | hlt
  · refine .inr ⟨by rw [heq], ?_⟩
    rw [← heq]
    omega
  · exact .inl (by omega)

/-- The line of an offset counts the line breaks before it, and the column the bytes since the last one.
The search that finds the line subtracts from nothing smaller and looks up no missing line start. So
positions increase with the offsets, and each one gives its offset back. -/
theorem position_ofText (text : List Char) :
    let table := ofText text
    (∀ offset, let o := min offset (Text.size text)
      let before := (bytes text).take o
      table.position offset = ⟨o, before.count newline + 1,
        (before.rtakeWhile (· != newline)).length + 1⟩ ∧
      (∀ next, search table.starts o = .error next → 0 < next) ∧
      ∃ start, table.starts[table.lineIndex o]? = some start ∧ start ≤ o) ∧
    (∀ a b, a < b → b ≤ Text.size text →
      toLex ((table.position a).line, (table.position a).column) <
        toLex ((table.position b).line, (table.position b).column)) ∧
    ∀ o ≤ Text.size text,
      table.offset? (table.position o).line (table.position o).column = some o := by
  intro table
  refine ⟨fun offset => ⟨?_, fun next hnext => ?_, ?_⟩, fun a b => position_lt, fun o => offset?_position⟩
  · rw [position_min]
    exact position_of_le (Nat.min_le_right _ _)
  · obtain ⟨index, -, hsearch | hsearch⟩ :=
      exists_search (increasing_ofText text) (min offset (Text.size text))
    · exact absurd (hsearch.symm.trans hnext) (by simp)
    · obtain rfl := Except.error.inj (hsearch.symm.trans hnext)
      omega
  · have hreaches := reaches_lineIndex (increasing_ofText text) (min offset (Text.size text))
    exact ⟨_, Array.getElem?_eq_getElem hreaches.lt, hreaches.le⟩

end LineTable
end SentinelWrap
