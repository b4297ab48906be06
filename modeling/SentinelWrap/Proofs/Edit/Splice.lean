import Mathlib.Data.List.Dedup
import Mathlib.Data.List.Sort
import SentinelWrap.Proofs.Edit.Order

/-! What applying edits means: it succeeds exactly on edits that fit the text and do not clash, and
the one pass over the sorted edits gives what replacing one range after the other, from the end of
the text on, gives. -/
namespace SentinelWrap.Edit
open Text (size)

/-- Every edit has its range in the text, and different edits neither overlap nor share a range. -/
structure Applicable (text : List Char) (edits : List Edit) : Prop where
  ordered : ∀ e ∈ edits, e.range.start ≤ e.range.stop
  inside : ∀ e ∈ edits, e.range.stop ≤ size text
  boundaries : ∀ e ∈ edits,
    Text.isBoundary e.range.start text = true ∧ Text.isBoundary e.range.stop text = true
  apart : ∀ a ∈ edits, ∀ b ∈ edits, a ≠ b → a.overlaps b = false ∧ a.range ≠ b.range

def replace? (text : List Char) (e : Edit) : Option (List Char) := do
  let before ← Span.slice? ⟨0, e.range.start⟩ text
  let _ ← e.range.slice? text
  let after ← Span.slice? ⟨e.range.stop, size text⟩ text
  return before ++ e.newText.toList ++ after

/-- The range comes later in the text, by its start and then by its end, or is the same. -/
def isLater (a b : Edit) : Bool :=
  b.range.start < a.range.start ||
    (b.range.start == a.range.start && b.range.stop ≤ a.range.stop)

def descending (edits : List Edit) : List Edit := edits.dedup.mergeSort isLater

/-- The pass over sorted edits with every slice checked: it fails where a slice would reach past the
text, run backwards or cut a character. -/
def weave? (text : List Char) (cursor : Nat) : List Edit → Option (List Char)
  | [] => Span.slice? ⟨cursor, size text⟩ text
  | e :: edits => do
    let kept ← Span.slice? ⟨cursor, e.range.start⟩ text
    let rest ← weave? text e.range.stop edits
    return kept ++ e.newText.toList ++ rest

theorem fits_iff {text : List Char} {e : Edit} :
    e.fits text = true ↔ e.range.start ≤ e.range.stop ∧
      Text.isBoundary e.range.start text = true ∧ Text.isBoundary e.range.stop text = true := by
  simp [fits, and_assoc]

theorem applyAll_eq_ok_iff {text out : String} {edits : List Edit} :
    applyAll text edits = .ok out ↔
      (∀ e ∈ edits, e.fits text.toList = true) ∧ clash? (sorted edits) = none ∧
        out = String.ofList (splice 0 text.toList (sorted edits)) := by
  unfold applyAll
  dsimp only
  cases hf : (sorted edits).find? (fun e => !e.fits text.toList) with
  | some e =>
    have hmem : e ∈ edits := mem_sorted.mp (List.mem_of_find?_eq_some hf)
    have hnot : e.fits text.toList = false := by simpa using List.find?_some hf
    refine ⟨nofun, ?_⟩
    rintro ⟨hall, -⟩
    rw [hall e hmem] at hnot
    cases hnot
  | none =>
    have hall : ∀ e ∈ edits, e.fits text.toList = true := by
      intro e he
      simpa using List.find?_eq_none.mp hf e (mem_sorted.mpr he)
    cases hc : clash? (sorted edits) with
    | some pair => exact ⟨nofun, fun h => nomatch h.2.1⟩
    | none =>
      constructor
      · intro h
        exact ⟨hall, rfl, (Except.ok.inj h).symm⟩
      · rintro ⟨-, -, rfl⟩
        rfl

theorem applyAll_of_ordered {text out : String} {edits ordered : List Edit}
    (hordered : ordered.Pairwise fun a b => a.le b = true ∧ a ≠ b)
    (hmem : (∀ e ∈ ordered, e ∈ edits) ∧ ∀ e ∈ edits, e ∈ ordered)
    (hfit : ∀ e ∈ edits, e.fits text.toList = true) (hclash : clash? ordered = none)
    (hout : splice 0 text.toList ordered = out.toList) : applyAll text edits = .ok out := by
  rw [applyAll_eq_ok_iff, sorted_eq hordered hmem, hout, String.ofList_toList]
  exact ⟨hfit, hclash, rfl⟩

theorem applicable_iff {text : List Char} {edits : List Edit} :
    Applicable text edits ↔
      (∀ e ∈ edits, e.fits text = true) ∧ clash? (sorted edits) = none := by
  constructor
  · intro h
    refine ⟨fun e he => fits_iff.mpr ⟨h.ordered e he, h.boundaries e he⟩, ?_⟩
    rw [clash?_eq_none_iff]
    have hpair : (sorted edits).Pairwise fun a b => a.clashes b = false := by
      refine (pairwise_sorted edits).imp_of_mem fun {a b} ha hb hlt => ?_
      exact clashes_eq_false_iff.mpr (h.apart a (mem_sorted.mp ha) b (mem_sorted.mp hb) hlt.2)
    exact hpair.isChain
  · rintro ⟨hfit, hclash⟩
    have hfit' := fun e he => fits_iff.mp (hfit e he)
    have hprec := pairwise_precedes (pairwise_sorted edits)
      (fun e he => (hfit' e (mem_sorted.mp he)).1) hclash
    refine ⟨fun e he => (hfit' e he).1, fun e he => Text.le_size_of_isBoundary (hfit' e he).2.2,
      fun e he => (hfit' e he).2, fun a ha b hb hne => ?_⟩
    have hall : (sorted edits).Pairwise fun a b => a.clashes b = false := hprec.imp (·.clashes)
    have hclashes : a.clashes b = false :=
      hall.forall (mem_sorted.mpr ha) (mem_sorted.mpr hb) hne
    exact clashes_eq_false_iff.mp hclashes

private theorem replace?_append {a b c : List Char} {e : Edit} (hs : size a = e.range.start)
    (ht : size a + size b = e.range.stop) :
    replace? (a ++ (b ++ c)) e = some (a ++ e.newText.toList ++ c) := by
  have hbefore : Span.slice? ⟨0, e.range.start⟩ (a ++ (b ++ c)) = some a :=
    Span.slice?_eq_some_iff.mpr ⟨[], b ++ c, by simp, rfl, by simpa using hs⟩
  have hinside : e.range.slice? (a ++ (b ++ c)) = some b :=
    Span.slice?_eq_some_iff.mpr ⟨a, c, rfl, hs, ht⟩
  have hafter : Span.slice? ⟨e.range.stop, size (a ++ (b ++ c))⟩ (a ++ (b ++ c)) = some c :=
    Span.slice?_eq_some_iff.mpr ⟨a ++ b, [], by simp, by simpa using ht, by simp; omega⟩
  simp only [replace?, hbefore, hinside, hafter, Option.bind_eq_bind, Option.bind_some, Option.pure_def]

/-- Where an edit after the cursor cuts the rest of the text. -/
theorem exists_cut {before rest : List Char} {e : Edit} (hfit : e.fits (before ++ rest) = true)
    (hcur : size before ≤ e.range.start) :
    ∃ kept covered after, rest = kept ++ (covered ++ after) ∧
      size before + size kept = e.range.start ∧
      size before + size kept + size covered = e.range.stop := by
  obtain ⟨hle, hstart, hstop⟩ := fits_iff.mp hfit
  obtain ⟨a, b, hab, ha⟩ := Text.isBoundary_iff.mp hstart
  obtain ⟨c, d, hcd, hc⟩ := Text.isBoundary_iff.mp hstop
  have hpa : before <+: a := Text.prefix_of_size_le ⟨rest, rfl⟩ ⟨b, hab.symm⟩ (by omega)
  have hpc : a <+: c := Text.prefix_of_size_le ⟨b, hab.symm⟩ ⟨d, hcd.symm⟩ (by omega)
  obtain ⟨kept, rfl⟩ := hpa
  obtain ⟨covered, rfl⟩ := hpc
  refine ⟨kept, covered, d, ?_, by simpa using ha, by simpa [Nat.add_assoc] using hc⟩
  simpa [List.append_assoc] using hcd

theorem splice_cons {cursor : Nat} {kept covered after : List Char} {e : Edit} {edits : List Edit}
    (hs : cursor + size kept = e.range.start) (ht : e.range.start + size covered = e.range.stop) :
    splice cursor (kept ++ (covered ++ after)) (e :: edits) =
      kept ++ e.newText.toList ++ splice e.range.stop after edits := by
  have hkept : e.range.start - cursor = size kept := by omega
  have hcovered : e.range.length = size covered := by unfold Span.length; omega
  simp only [splice, hkept, hcovered, Text.splitAt?_append]

/-- Edits that fit a text, follow each other, and begin at a cursor or after it. -/
structure Ahead (text : List Char) (cursor : Nat) (edits : List Edit) : Prop where
  fit : ∀ e ∈ edits, e.fits text = true
  ordered : edits.Pairwise Precedes
  after : ∀ e ∈ edits, cursor ≤ e.range.start

theorem Ahead.tail {text : List Char} {cursor : Nat} {e : Edit} {edits : List Edit}
    (h : Ahead text cursor (e :: edits)) : Ahead text e.range.stop edits where
  fit a ha := h.fit a (List.mem_cons_of_mem _ ha)
  ordered := h.ordered.of_cons
  after _ ha := (List.rel_of_pairwise_cons h.ordered ha).1

theorem weave?_eq_splice {before rest : List Char} {edits : List Edit}
    (h : Ahead (before ++ rest) (size before) edits) :
    weave? (before ++ rest) (size before) edits = some (splice (size before) rest edits) := by
  induction edits generalizing before rest with
  | nil =>
    simp only [weave?, splice, Span.slice?_eq_some_iff]
    exact ⟨before, [], by simp, rfl, by simp⟩
  | cons e edits ih =>
    obtain ⟨kept, covered, after, rfl, hs, ht⟩ :=
      exists_cut (h.fit e List.mem_cons_self) (h.after e List.mem_cons_self)
    have htext : before ++ (kept ++ (covered ++ after)) = (before ++ kept ++ covered) ++ after := by
      simp
    have hcursor : size (before ++ kept ++ covered) = e.range.stop := by
      rw [Text.size_append, Text.size_append, ht]
    have hkept : Span.slice? ⟨size before, e.range.start⟩ (before ++ (kept ++ (covered ++ after))) =
        some kept := Span.slice?_eq_some_iff.mpr ⟨before, covered ++ after, rfl, rfl, hs⟩
    have hrest : weave? (before ++ (kept ++ (covered ++ after))) e.range.stop edits =
        some (splice e.range.stop after edits) := by
      rw [htext, ← hcursor]
      apply ih
      rw [← htext, hcursor]
      exact h.tail
    rw [splice_cons hs (by omega)]
    simp only [weave?, hkept, hrest, Option.bind_eq_bind, Option.bind_some, Option.pure_def]

/-- Made one at a time from the last to the first, edits do not move what comes before them. -/
theorem foldlM_replace?_reverse {before rest : List Char} {edits : List Edit}
    (h : Ahead (before ++ rest) (size before) edits) :
    edits.reverse.foldlM replace? (before ++ rest) =
      some (before ++ splice (size before) rest edits) := by
  induction edits generalizing before rest with
  | nil => rfl
  | cons e edits ih =>
    obtain ⟨kept, covered, after, rfl, hs, ht⟩ :=
      exists_cut (h.fit e List.mem_cons_self) (h.after e List.mem_cons_self)
    have htext : before ++ (kept ++ (covered ++ after)) = (before ++ kept ++ covered) ++ after := by
      simp
    have hcursor : size (before ++ kept ++ covered) = e.range.stop := by
      rw [Text.size_append, Text.size_append, ht]
    have hrest : edits.reverse.foldlM replace? (before ++ (kept ++ (covered ++ after))) =
        some ((before ++ kept) ++ (covered ++ splice e.range.stop after edits)) := by
      have hahead : Ahead ((before ++ kept ++ covered) ++ after)
          (size (before ++ kept ++ covered)) edits := by
        rw [← htext, hcursor]
        exact h.tail
      rw [htext, ih hahead, hcursor]
      simp
    rw [List.reverse_cons, List.foldlM_append, hrest, splice_cons hs (by omega)]
    simp only [List.foldlM_cons, List.foldlM_nil, Option.bind_eq_bind, Option.bind_some]
    rw [replace?_append (by simpa using hs) (by simpa using ht)]
    simp

theorem isLater_iff {a b : Edit} :
    a.isLater b = true ↔ b.range.start < a.range.start ∨
      b.range.start = a.range.start ∧ b.range.stop ≤ a.range.stop := by
  simp [isLater]

private theorem pairwise_descending (edits : List Edit) :
    (descending edits).Pairwise fun a b => a.isLater b = true := by
  refine List.pairwise_mergeSort (fun a b c => ?_) (fun a b => ?_) _
  · simp only [isLater_iff]
    omega
  · simp only [Bool.or_eq_true, isLater_iff]
    omega

/-- Where ranges differ, sorting by range alone reverses the order of all edits. -/
theorem descending_eq_reverse {edits : List Edit}
    (h : ∀ a ∈ edits, ∀ b ∈ edits, a ≠ b → a.range ≠ b.range) :
    descending edits = (sorted edits).reverse := by
  have hperm : (descending edits).Perm (sorted edits).reverse := by
    refine (List.mergeSort_perm _ _).trans ?_
    refine List.Perm.trans ?_ (List.reverse_perm _).symm
    rw [List.perm_ext_iff_of_nodup edits.nodup_dedup (nodup_sorted edits)]
    simp
  have hsorted : (sorted edits).reverse.Pairwise fun a b => a.isLater b = true := by
    rw [List.pairwise_reverse]
    refine (pairwise_sorted edits).imp fun {a b} hab => ?_
    rw [isLater_iff]
    exact range_le_of_le hab.1
  refine hperm.eq_of_pairwise (fun a b ha hb hab hba => ?_) (pairwise_descending edits) hsorted
  have hmem {e : Edit} (he : e ∈ descending edits) : e ∈ edits := by simpa [descending] using he
  have hmem' {e : Edit} (he : e ∈ (sorted edits).reverse) : e ∈ edits := by simpa using he
  by_contra hne
  apply h a (hmem ha) b (hmem' hb) hne
  rw [isLater_iff] at hab hba
  exact Span.ext (by omega) (by omega)

/-- Edits are applied exactly if each fits the text and no two different ones clash. The result is
then the text with the different edits made one at a time, the last one in the text first; and the
pass that computes it takes no slice that is out of range, runs backwards or cuts a character. -/
theorem applyAll_ok_iff_applicable_and_eq (text : String) (edits : List Edit) :
    ((∃ out, applyAll text edits = .ok out) ↔ Applicable text.toList edits) ∧
      ∀ out, applyAll text edits = .ok out →
        (descending edits).foldlM replace? text.toList = some out.toList ∧
        weave? text.toList 0 (sorted edits) = some out.toList := by
  constructor
  · rw [applicable_iff]
    constructor
    · rintro ⟨out, hout⟩
      obtain ⟨hfit, hclash, -⟩ := applyAll_eq_ok_iff.mp hout
      exact ⟨hfit, hclash⟩
    · rintro ⟨hfit, hclash⟩
      exact ⟨_, applyAll_eq_ok_iff.mpr ⟨hfit, hclash, rfl⟩⟩
  · intro out hout
    obtain ⟨hfit, hclash, rfl⟩ := applyAll_eq_ok_iff.mp hout
    have happ : Applicable text.toList edits := applicable_iff.mpr ⟨hfit, hclash⟩
    have hahead : Ahead ([] ++ text.toList) (size []) (sorted edits) :=
      { fit := fun e he => hfit e (mem_sorted.mp he)
        ordered := pairwise_precedes (pairwise_sorted edits)
          (fun e he => happ.ordered e (mem_sorted.mp he)) hclash
        after := fun _ _ => Nat.zero_le _ }
    rw [descending_eq_reverse fun a ha b hb hne => (happ.apart a ha b hb hne).2, String.toList_ofList]
    exact ⟨foldlM_replace?_reverse hahead, weave?_eq_splice hahead⟩

/-- An insertion at the start of a replacement, a repeated edit and one that touches another, out of
order. -/
theorem replace_touching_edits :
    (descending [⟨⟨4, 5⟩, "Z"⟩, ⟨⟨1, 3⟩, "x"⟩, ⟨⟨1, 1⟩, "y"⟩, ⟨⟨4, 5⟩, "Z"⟩, ⟨⟨3, 4⟩, ""⟩]).foldlM
      replace? "a\u00e9cd".toList = some "ayxZ".toList := by
  refine ((applyAll_ok_iff_applicable_and_eq _ _).2 "ayxZ" ?_).1
  refine @applyAll_of_ordered _ _ _ [⟨⟨1, 1⟩, "y"⟩, ⟨⟨1, 3⟩, "x"⟩, ⟨⟨3, 4⟩, ""⟩, ⟨⟨4, 5⟩, "Z"⟩]
    ?_ ?_ ?_ ?_ ?_ <;> decide +kernel

/-- The outcome depends on which edits there are, not on the order in which they come or on how often
each of them comes: it is the same text, or the same fault of the same edits. -/
theorem applyAll_eq_of_mem_iff (text : String) {edits edits' : List Edit}
    (h : ∀ e, e ∈ edits ↔ e ∈ edits') : applyAll text edits = applyAll text edits' := by
  unfold applyAll
  rw [sorted_congr h]

/-- Of three edits that clash with each other, repeated and in another order, the same two are
told. -/
theorem overlap_told_in_any_order :
    let edits : List Edit := [⟨⟨2, 6⟩, "y"⟩, ⟨⟨0, 4⟩, "x"⟩, ⟨⟨0, 4⟩, "w"⟩]
    let edits' : List Edit := [⟨⟨0, 4⟩, "w"⟩, ⟨⟨2, 6⟩, "y"⟩, ⟨⟨0, 4⟩, "x"⟩, ⟨⟨2, 6⟩, "y"⟩]
    applyAll "abcdef" edits' = .error (.overlappingEdits ⟨0, 4⟩ ⟨0, 4⟩) ∧
      applyAll "abcdef" edits = applyAll "abcdef" edits' := by
  intro edits edits'
  have hsorted : sorted edits' = [⟨⟨0, 4⟩, "w"⟩, ⟨⟨0, 4⟩, "x"⟩, ⟨⟨2, 6⟩, "y"⟩] :=
    sorted_eq (by decide +kernel) ⟨by decide, by decide⟩
  constructor
  · unfold applyAll
    rw [hsorted]
    rfl
  · refine applyAll_eq_of_mem_iff _ fun e => ?_
    simp only [edits, edits', List.mem_cons, List.not_mem_nil, or_false]
    tauto

end SentinelWrap.Edit
