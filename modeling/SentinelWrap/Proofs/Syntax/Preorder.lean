import Mathlib.Data.List.Basic
import SentinelWrap.Syntax.Traversal

/-! The nodes of a tree in the order in which a traversal meets them, and the kinds of nodes that it
reports. -/
namespace SentinelWrap

namespace NodeFilter

private theorem and_bit (a b : NodeKind) : (bit a &&& bit b != 0) = (a == b) := by
  cases a <;> cases b <;> rfl

private theorem or_and_bne_zero (a b c : UInt16) :
    ((a ||| b) &&& c != 0) = (a &&& c != 0 || b &&& c != 0) := by
  have hdistrib : (a ||| b) &&& c = (a &&& c) ||| (b &&& c) := by
    rw [← UInt16.toBitVec_inj]
    ext i
    simp [Bool.and_or_distrib_right]
  rw [hdistrib, Bool.eq_iff_iff]
  simp [UInt16.or_eq_zero_iff, -not_and, not_and_or]

/-- The kinds of a filter are those it was made of, however often each of them was given. -/
@[simp] theorem contains_only (kinds : List NodeKind) (kind : NodeKind) :
    (only kinds).contains kind = true ↔ kind ∈ kinds := by
  have hmask (mask : UInt16) : (kinds.foldl (fun mask kind => mask ||| bit kind) mask &&& bit kind != 0) =
      (mask &&& bit kind != 0 || kinds.contains kind) := by
    induction kinds generalizing mask with
    | nil => simp
    | cons k kinds ih => rw [List.foldl_cons, ih, or_and_bne_zero, and_bit, List.contains_cons,
        Bool.or_assoc, Bool.beq_comm]
  rw [contains, only, hmask 0]
  simp

end NodeFilter

namespace Node

private theorem sizeOf_lt_of_mem_children {c n : Node} (h : c ∈ n.children) :
    sizeOf c < sizeOf n := by
  have hlist {ns : List Node} (hc : c ∈ ns) : sizeOf c < sizeOf ns := List.sizeOf_lt_of_mem hc
  have hoption {o : Option Node} (hc : c ∈ o.toList) : sizeOf c < sizeOf o := by
    obtain ⟨a, rfl⟩ := Option.isSome_iff_exists.mp (Option.isSome_of_mem (Option.mem_toList.mp hc))
    obtain rfl : c = a := by simpa using hc
    simp
  cases n with
  | file span package imports decls =>
    have : sizeOf c < sizeOf decls := hlist h
    simp only [file.sizeOf_spec]; omega
  | conditional span init condition body alternative =>
    simp only [children, List.mem_append, List.mem_cons] at h
    simp only [conditional.sizeOf_spec]
    rcases h with (hi | rfl | hb) | ha
    · have := hoption hi; omega
    · omega
    · have := hlist hb; omega
    · have := hoption ha; omega
  | ret span results =>
    have : sizeOf c < sizeOf results := hlist h
    simp only [ret.sizeOf_spec]; omega
  | memberAccess span operand member =>
    obtain rfl : c = operand := by simpa [children] using h
    simp only [memberAccess.sizeOf_spec]; omega
  | comparison span left op right =>
    simp only [comparison.sizeOf_spec]
    rcases (by simpa [children] using h : c = left ∨ c = right) with rfl | rfl <;> omega
  | call span callee args =>
    simp only [call.sizeOf_spec]
    rcases List.mem_cons.mp h with rfl | ha
    · omega
    · have := hlist ha; omega
  | other span kind children =>
    have : sizeOf c < sizeOf children := hlist h
    simp only [other.sizeOf_spec]; omega
  | importGroup | identifier | literal => cases h

/-- To prove a property of all trees, take it for granted of the children of a node. -/
theorem children_induction {P : Node → Prop} (step : ∀ n, (∀ c ∈ n.children, P c) → P n)
    (n : Node) : P n :=
  step n fun c _ => children_induction step c
termination_by sizeOf n
decreasing_by exact sizeOf_lt_of_mem_children ‹_›

/-- A node before its children, and these in source order. -/
def preorder : Node → List Node := fold fun n below => n :: below.flatten

theorem preorder_eq (n : Node) : n.preorder = n :: n.children.flatMap preorder := by
  unfold preorder
  rw [fold_eq, List.flatMap_def]

theorem self_mem_preorder (n : Node) : n ∈ n.preorder := by simp [preorder_eq n]

theorem preorder_subset_of_mem_children {c n : Node} (h : c ∈ n.children) :
    c.preorder ⊆ n.preorder := by
  intro m hm
  rw [preorder_eq n]
  exact List.mem_cons_of_mem _ (List.mem_flatMap.mpr ⟨c, h, hm⟩)

theorem preorder_subset_of_mem {root n : Node} (hn : n ∈ root.preorder) :
    n.preorder ⊆ root.preorder := by
  induction root using children_induction with
  | step root ih =>
    have hn' := hn
    rw [preorder_eq root, List.mem_cons, List.mem_flatMap] at hn'
    rcases hn' with rfl | ⟨d, hd, hn'⟩
    · exact List.Subset.refl _
    · exact List.Subset.trans (ih d hd hn') (preorder_subset_of_mem_children hd)

theorem inspect_eq {σ : Type} (filter : NodeFilter) (visitor : Visitor σ) (n : Node) :
    n.inspect filter visitor = inspectStep filter visitor n
      (n.children.map (inspect filter visitor)) :=
  fold_eq _ n

end Node
end SentinelWrap
