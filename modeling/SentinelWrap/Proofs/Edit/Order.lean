import Mathlib.Data.List.Pairwise
import SentinelWrap.Edit.Apply
import SentinelWrap.Proofs.Text.Split

/-! The order in which edits are made. Comparison is a linear order on whole edits, so a sorted list
without repetitions is strictly increasing; and if neighbours in it do not clash, no two edits do. -/
namespace SentinelWrap.Edit

instance compareTrans : Std.TransCmp compare :=
  inferInstanceAs <| Std.TransCmp
    (compareLex (compareOn fun e : Edit => e.range.start)
      (compareLex (compareOn fun e : Edit => e.range.stop) (compareOn Edit.newText)))

private theorem eq_of_compare_eq {a b : Edit} (h : a.compare b = .eq) : a = b := by
  simp only [compare, Ordering.then_eq_eq, Std.LawfulEqOrd.compare_eq_iff_eq] at h
  obtain ⟨⟨⟨s, t⟩, n⟩, ⟨⟨s', t'⟩, n'⟩⟩ := a, b
  simp_all

theorem le_trans {a b c : Edit} (hab : a.le b = true) (hbc : b.le c = true) : a.le c = true :=
  Std.TransCmp.isLE_trans hab hbc

theorem le_total (a b : Edit) : (a.le b || b.le a) = true := by
  have hswap : b.compare a = (a.compare b).swap := Std.OrientedCmp.eq_swap
  unfold le
  rw [hswap]
  cases a.compare b <;> rfl

theorem le_antisymm {a b : Edit} (hab : a.le b = true) (hba : b.le a = true) : a = b :=
  eq_of_compare_eq (Std.OrientedCmp.isLE_antisymm hab hba)

/-- What the order says about the ranges. -/
theorem range_le_of_le {a b : Edit} (h : a.le b = true) :
    a.range.start < b.range.start ∨ a.range.start = b.range.start ∧ a.range.stop ≤ b.range.stop := by
  unfold le compare at h
  simp only [Ordering.isLE_then_iff_and] at h
  obtain ⟨hs, hs' | ⟨ht, -⟩⟩ := h
  · exact .inl (Nat.compare_eq_lt.mp hs')
  · have hle : a.range.start ≤ b.range.start := Nat.isLE_compare.mp hs
    rcases Nat.lt_or_eq_of_le hle with hlt | heq
    · exact .inl hlt
    · exact .inr ⟨heq, Nat.isLE_compare.mp ht⟩

theorem mem_dedup {e : Edit} {edits : List Edit} : e ∈ dedup edits ↔ e ∈ edits := by
  induction edits using dedup.induct with
  | case1 => rfl
  | case2 => rfl
  | case3 b rest ih => simp [dedup, ih]
  | case4 a b rest h ih => simp [dedup, h, ih]

private theorem pairwise_dedup {edits : List Edit} (h : edits.Pairwise fun a b => a.le b = true) :
    (dedup edits).Pairwise fun a b => a.le b = true ∧ a ≠ b := by
  induction edits using dedup.induct with
  | case1 => exact .nil
  | case2 e => exact List.pairwise_singleton _ _
  | case3 b rest ih =>
    simp only [dedup, if_true]
    exact ih h.of_cons
  | case4 a b rest hne ih =>
    rw [dedup, if_neg hne, List.pairwise_cons]
    refine ⟨fun c hc => ?_, ih h.of_cons⟩
    have hmem : c ∈ b :: rest := mem_dedup.mp hc
    refine ⟨List.rel_of_pairwise_cons h hmem, ?_⟩
    rintro rfl
    rcases List.mem_cons.mp hmem with rfl | hc
    · exact hne rfl
    · exact hne (le_antisymm (List.rel_of_pairwise_cons h List.mem_cons_self)
        (List.rel_of_pairwise_cons h.of_cons hc))

@[simp] theorem mem_sorted {e : Edit} {edits : List Edit} : e ∈ sorted edits ↔ e ∈ edits := by
  simp [sorted, mem_dedup]

theorem pairwise_sorted (edits : List Edit) :
    (sorted edits).Pairwise fun a b => a.le b = true ∧ a ≠ b :=
  pairwise_dedup (List.pairwise_mergeSort (fun a b c => @le_trans a b c) le_total edits)

theorem nodup_sorted (edits : List Edit) : (sorted edits).Nodup :=
  (pairwise_sorted edits).imp fun h => h.2

/-- There is one way to put different edits in order. -/
theorem sorted_eq {edits ordered : List Edit}
    (h : ordered.Pairwise fun a b => a.le b = true ∧ a ≠ b)
    (hmem : (∀ e ∈ ordered, e ∈ edits) ∧ ∀ e ∈ edits, e ∈ ordered) : sorted edits = ordered := by
  have hperm : (sorted edits).Perm ordered := by
    refine (List.perm_ext_iff_of_nodup (nodup_sorted edits) (h.imp fun hab => hab.2)).mpr fun e => ?_
    rw [mem_sorted]
    exact ⟨hmem.2 e, hmem.1 e⟩
  refine hperm.eq_of_pairwise (fun a b _ _ hab hba => le_antisymm hab hba) ?_ (h.imp And.left)
  exact (pairwise_sorted edits).imp And.left

/-- The order in which edits came, and how often each came, is lost in sorting. -/
theorem sorted_congr {edits edits' : List Edit} (h : ∀ e, e ∈ edits ↔ e ∈ edits') :
    sorted edits = sorted edits' := by
  refine sorted_eq (pairwise_sorted edits') ⟨fun e he => ?_, fun e he => ?_⟩
  · exact (h e).mpr (mem_sorted.mp he)
  · exact mem_sorted.mpr ((h e).mp he)

/-- One edit is over before the other begins, and they are not two insertions at one place. -/
def Precedes (a b : Edit) : Prop :=
  a.range.stop ≤ b.range.start ∧ a.range ≠ b.range

theorem clashes_comm (a b : Edit) : a.clashes b = b.clashes a := by
  simp only [clashes, overlaps, Bool.and_comm, Bool.beq_comm]

instance clashesSymm : Std.Symm fun a b : Edit => a.clashes b = false where
  symm a b h := (clashes_comm b a).trans h

theorem clashes_eq_false_iff {a b : Edit} :
    a.clashes b = false ↔ a.overlaps b = false ∧ a.range ≠ b.range := by
  simp [clashes]

theorem Precedes.clashes {a b : Edit} (h : a.Precedes b) : a.clashes b = false := by
  rw [clashes_eq_false_iff]
  refine ⟨?_, h.2⟩
  have := h.1
  simp only [overlaps, Bool.and_eq_false_iff, decide_eq_false_iff_not]
  omega

/-- In order, edits that do not clash follow each other. An insertion at the start of a replacement
sorts before it, so the one case in which neither range strictly reaches into the other does not
arise. -/
theorem precedes_of_clashes {a b : Edit} (hle : a.le b = true)
    (hb : b.range.start ≤ b.range.stop) (h : a.clashes b = false) : a.Precedes b := by
  obtain ⟨ho, hne⟩ := clashes_eq_false_iff.mp h
  refine ⟨?_, hne⟩
  have hr := range_le_of_le hle
  have hcross : ¬ (a.range.start < b.range.stop ∧ b.range.start < a.range.stop) := by
    simpa [overlaps] using ho
  omega

theorem Precedes.trans {a b c : Edit} (hb : b.range.start ≤ b.range.stop)
    (hc : c.range.start ≤ c.range.stop) (hab : a.Precedes b) (hbc : b.Precedes c) :
    a.Precedes c := by
  refine ⟨by have := hab.1; have := hbc.1; omega, ?_⟩
  intro heq
  have h1 := hab.1
  have h2 := hbc.1
  apply hab.2
  rw [heq] at h1 ⊢
  have hstart : c.range.start = b.range.start := by omega
  have hstop : c.range.stop = b.range.stop := by omega
  exact Span.ext hstart hstop

theorem clash?_eq_none_iff {edits : List Edit} :
    clash? edits = none ↔ edits.IsChain fun a b => a.clashes b = false := by
  induction edits using clash?.induct with
  | case1 a b rest h => simp [clash?, h]
  | case2 a b rest h ih => simp [clash?, h, ih]
  | case3 edits h =>
    match edits, h with
    | [], _ => simp [clash?]
    | [e], _ => simp [clash?]
    | a :: b :: rest, h => exact absurd rfl (h a b rest)

/-- Neighbours of a sorted list that do not clash are enough for all pairs. -/
theorem pairwise_precedes {edits : List Edit} (hs : edits.Pairwise fun a b => a.le b = true ∧ a ≠ b)
    (hr : ∀ e ∈ edits, e.range.start ≤ e.range.stop) (hc : clash? edits = none) :
    edits.Pairwise Precedes := by
  induction edits with
  | nil => exact .nil
  | cons a rest ih =>
    have hrest : rest.Pairwise Precedes := by
      refine ih hs.of_cons (fun e he => hr e (List.mem_cons_of_mem _ he)) ?_
      exact clash?_eq_none_iff.mpr (clash?_eq_none_iff.mp hc).of_cons
    rw [List.pairwise_cons]
    refine ⟨?_, hrest⟩
    cases rest with
    | nil => simp
    | cons b rest =>
      have hb : b ∈ a :: b :: rest := by simp
      have hab : a.Precedes b := precedes_of_clashes
        (List.rel_of_pairwise_cons hs List.mem_cons_self).1 (hr b hb)
        (List.isChain_cons_cons.mp (clash?_eq_none_iff.mp hc)).1
      intro c hmem
      rcases List.mem_cons.mp hmem with rfl | hmem'
      · exact hab
      · exact hab.trans (hr b hb) (hr c (List.mem_cons_of_mem _ hmem))
          (List.rel_of_pairwise_cons hrest hmem')

end SentinelWrap.Edit
