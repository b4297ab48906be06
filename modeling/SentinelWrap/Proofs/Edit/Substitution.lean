import SentinelWrap.Proofs.Edit.Splice

/-! Edits made all at once. Each character of a text is kept or dropped by its own offset alone, and
where a range begins its new text is put; no order of the edits is needed to say so. -/
namespace SentinelWrap.Edit
open Text (size)

def covers (e : Edit) (offset : Nat) : Bool := e.range.start ≤ offset && offset < e.range.stop

/-- The text from a byte offset on, with every range replaced by its new text. -/
def substituted (edits : List Edit) : Nat → List Char → List Char
  | _, [] => []
  | offset, c :: cs =>
    ((edits.find? (·.range.start == offset)).map (·.newText.toList)).getD [] ++
      (if edits.any (·.covers offset) then [] else [c]) ++
      substituted edits (offset + c.utf8Size) cs

variable {edits : List Edit} {offset : Nat} {after : List Char}

theorem find?_start_eq_none (h : ∀ e ∈ edits, e.range.start ≠ offset) :
    edits.find? (·.range.start == offset) = none := by
  rw [List.find?_eq_none]
  simpa using h

/-- What no range reaches is kept. -/
theorem substituted_kept {kept : List Char} (hnonempty : ∀ e ∈ edits, e.range.start < e.range.stop)
    (h : ∀ e ∈ edits, e.range.stop ≤ offset ∨ offset + size kept ≤ e.range.start) :
    substituted edits offset (kept ++ after) =
      kept ++ substituted edits (offset + size kept) after := by
  induction kept generalizing offset with
  | nil => rfl
  | cons c kept ih =>
    have hpos := c.utf8Size_pos
    rw [Text.size_cons] at h
    have hfind : edits.find? (·.range.start == offset) = none := by
      refine find?_start_eq_none fun e he => ?_
      have := hnonempty e he
      have := h e he
      omega
    have hcovers : edits.any (·.covers offset) = false := by
      rw [List.any_eq_false]
      intro e he
      have := h e he
      simp only [covers, Bool.and_eq_true, decide_eq_true_eq]
      omega
    have hrest := @ih (offset + c.utf8Size) fun e he => by
      have := h e he
      omega
    rw [List.cons_append, substituted, hfind, hcovers, hrest, Text.size_cons, Nat.add_assoc]
    rfl

/-- Of what one range covers nothing is kept, but for what is put where a range begins. -/
theorem substituted_covered {e : Edit} (he : e ∈ edits) {covered : List Char}
    (hstart : e.range.start ≤ offset) (hstop : offset + size covered ≤ e.range.stop)
    (h : ∀ a ∈ edits, a.range.start < offset ∨ offset + size covered ≤ a.range.start) :
    substituted edits offset (covered ++ after) =
      substituted edits (offset + size covered) after := by
  induction covered generalizing offset with
  | nil => rfl
  | cons c covered ih =>
    have hpos := c.utf8Size_pos
    rw [Text.size_cons] at hstop h
    have hfind : edits.find? (·.range.start == offset) = none := by
      refine find?_start_eq_none fun a ha => ?_
      have := h a ha
      omega
    have hcovers : edits.any (·.covers offset) = true := by
      rw [List.any_eq_true]
      refine ⟨e, he, ?_⟩
      simp only [covers, Bool.and_eq_true, decide_eq_true_eq]
      omega
    have hrest := @ih (offset + c.utf8Size) (by omega) (by omega) fun a ha => by
      have := h a ha
      omega
    rw [List.cons_append, substituted, hfind, hcovers, hrest, Text.size_cons, Nat.add_assoc]
    rfl

/-- A whole range is replaced by its new text. -/
theorem substituted_range {e : Edit} (he : e ∈ edits) (hnonempty : e.range.start < e.range.stop)
    {covered : List Char} (hcovered : e.range.start + size covered = e.range.stop)
    (h : ∀ a ∈ edits, a = e ∨ a.range.start < e.range.start ∨ e.range.stop ≤ a.range.start) :
    substituted edits e.range.start (covered ++ after) =
      e.newText.toList ++ substituted edits e.range.stop after := by
  cases covered with
  | nil =>
    rw [Text.size_nil] at hcovered
    omega
  | cons c covered =>
    have hpos := c.utf8Size_pos
    rw [Text.size_cons] at hcovered
    have hfind : edits.find? (·.range.start == e.range.start) = some e := by
      cases hfind : edits.find? (·.range.start == e.range.start) with
      | none => simpa using List.find?_eq_none.mp hfind e he
      | some a =>
        have hsame : a.range.start = e.range.start := by simpa using List.find?_some hfind
        rcases h a (List.mem_of_find?_eq_some hfind) with rfl | hlt | hle
        · rfl
        · omega
        · omega
    have hcovers : edits.any (·.covers e.range.start) = true := by
      rw [List.any_eq_true]
      refine ⟨e, he, ?_⟩
      simp only [covers, Bool.and_eq_true, decide_eq_true_eq]
      omega
    have hrest := @substituted_covered edits (e.range.start + c.utf8Size) after e he covered
      (by omega) (by omega) fun a ha => by
        rcases h a ha with rfl | hlt | hle <;> omega
    rw [List.cons_append, substituted, hfind, hcovers, hrest, Nat.add_assoc, hcovered]
    simp

/-- One pass over the edits in order makes them all. -/
theorem splice_eq_substituted {all : List Edit} {before rest : List Char}
    (h : Ahead (before ++ rest) (size before) edits)
    (hnonempty : ∀ e ∈ all, e.range.start < e.range.stop) (hsub : ∀ e ∈ edits, e ∈ all)
    (hpast : ∀ e ∈ all, e ∈ edits ∨ e.range.stop ≤ size before) :
    splice (size before) rest edits = substituted all (size before) rest := by
  induction edits generalizing before rest with
  | nil =>
    have hkept := @substituted_kept all (size before) [] rest hnonempty fun e he =>
      .inl ((hpast e he).resolve_left (List.not_mem_nil))
    rw [List.append_nil] at hkept
    rw [hkept, splice, substituted, List.append_nil]
  | cons e edits ih =>
    obtain ⟨kept, covered, after, rfl, hs, ht⟩ :=
      exists_cut (h.fit e List.mem_cons_self) (h.after e List.mem_cons_self)
    have htext : before ++ (kept ++ (covered ++ after)) = (before ++ kept ++ covered) ++ after := by
      simp
    have hcursor : size (before ++ kept ++ covered) = e.range.stop := by
      rw [Text.size_append, Text.size_append, ht]
    obtain ⟨he, hsub⟩ := List.forall_mem_cons.mp hsub
    have hother : ∀ a ∈ all, a = e ∨ a.range.stop ≤ size before ∨ a ∈ edits := by
      intro a ha
      rcases hpast a ha with hmem | hle
      · exact (List.mem_cons.mp hmem).imp_right .inr
      · exact .inr (.inl hle)
    have hafter : ∀ a ∈ edits, e.range.stop ≤ a.range.start := fun a ha =>
      (List.rel_of_pairwise_cons h.ordered ha).1
    have hlt := hnonempty e he
    have hrest : splice e.range.stop after edits = substituted all e.range.stop after := by
      rw [← hcursor]
      refine ih ?_ hsub fun a ha => ?_
      · rw [← htext, hcursor]
        exact h.tail
      · rcases hother a ha with rfl | hle | hmem
        · exact .inr (Nat.le_of_eq hcursor.symm)
        · exact .inr (by omega)
        · exact .inl hmem
    have hkept := @substituted_kept all (size before) (covered ++ after) kept hnonempty fun a ha => by
      rcases hother a ha with rfl | hle | hmem
      · exact .inr (Nat.le_of_eq hs)
      · exact .inl hle
      · have := hafter a hmem
        exact .inr (by omega)
    have hrange := @substituted_range all after e he hlt covered (by omega) fun a ha => by
      rcases hother a ha with rfl | hle | hmem
      · exact .inl rfl
      · have := hnonempty a ha
        exact .inr (.inl (by omega))
      · exact .inr (.inr (hafter a hmem))
    rw [splice_cons hs (by omega), hkept, hs, hrange, hrest, List.append_assoc]

/-- Where edits of ranges that are not empty can be applied, they are all made at once. -/
theorem toList_of_applyAll {text out : String} (h : applyAll text edits = .ok out)
    (hnonempty : ∀ e ∈ edits, e.range.start < e.range.stop) :
    out.toList = substituted edits 0 text.toList := by
  obtain ⟨hfit, hclash, rfl⟩ := applyAll_eq_ok_iff.mp h
  have hahead : Ahead ([] ++ text.toList) (size []) (sorted edits) :=
    { fit := fun e he => hfit e (mem_sorted.mp he)
      ordered := pairwise_precedes (pairwise_sorted edits)
        (fun e he => Nat.le_of_lt (hnonempty e (mem_sorted.mp he))) hclash
      after := fun _ _ => Nat.zero_le _ }
  rw [String.toList_ofList]
  exact splice_eq_substituted hahead hnonempty (fun e => mem_sorted.mp) fun e he =>
    .inl (mem_sorted.mpr he)

end SentinelWrap.Edit
