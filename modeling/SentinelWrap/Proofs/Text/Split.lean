import Mathlib.Tactic.Common
import SentinelWrap.Text.Span

/-! Splitting a text at byte offsets. A character boundary is the size of a prefix, and prefixes of
one text are told apart by their sizes. -/
namespace SentinelWrap.Text

@[simp] theorem size_nil : size [] = 0 := rfl

@[simp] theorem size_cons (c : Char) (cs : List Char) : size (c :: cs) = c.utf8Size + size cs := rfl

@[simp] theorem size_append (a b : List Char) : size (a ++ b) = size a + size b := by
  induction a with
  | nil => simp
  | cons c a ih => simp only [List.cons_append, size_cons, ih]; omega

theorem size_eq_zero_iff {a : List Char} : size a = 0 ↔ a = [] := by
  cases a with
  | nil => simp
  | cons c a =>
    have := c.utf8Size_pos
    simp only [size_cons, reduceCtorEq, iff_false]
    omega

/-- Two ways of cutting one text at the same offset are the same. -/
theorem append_inj_of_size {a b c d : List Char} (h : a ++ b = c ++ d) (hs : size a = size c) :
    a = c ∧ b = d := by
  induction a generalizing c with
  | nil =>
    have hc : c = [] := size_eq_zero_iff.mp hs.symm
    subst hc
    exact ⟨rfl, h⟩
  | cons x a ih =>
    cases c with
    | nil =>
      have := x.utf8Size_pos
      simp only [size_cons, size_nil] at hs
      omega
    | cons y c =>
      obtain ⟨rfl, ht⟩ := List.cons.inj h
      obtain ⟨rfl, rfl⟩ := ih ht (by simpa using hs)
      exact ⟨rfl, rfl⟩

theorem prefix_of_size_le {a b text : List Char} (ha : a <+: text) (hb : b <+: text)
    (h : size a ≤ size b) : a <+: b := by
  rcases List.prefix_or_prefix_of_prefix ha hb with hab | ⟨c, rfl⟩
  · exact hab
  · have hc : c = [] := size_eq_zero_iff.mp (by rw [size_append] at h; omega)
    simp [hc]

theorem splitAt?_append (a b : List Char) : splitAt? (size a) (a ++ b) = some (a, b) := by
  induction a with
  | nil => simp [splitAt?]
  | cons c a ih =>
    have hc := c.utf8Size_pos
    obtain ⟨n, hn⟩ : ∃ n, size (c :: a) = n + 1 := ⟨c.utf8Size + size a - 1, by simp; omega⟩
    have hle : c.utf8Size ≤ n + 1 := by rw [← hn]; simp
    have hrest : n + 1 - c.utf8Size = size a := by rw [← hn]; simp
    rw [hn, List.cons_append, splitAt?, if_pos hle, hrest, ih]
    rfl

theorem splitAt?_eq_some_iff {n : Nat} {cs a b : List Char} :
    splitAt? n cs = some (a, b) ↔ cs = a ++ b ∧ size a = n := by
  constructor
  · intro h
    induction n, cs using splitAt?.induct generalizing a b with
    | case1 cs =>
      obtain ⟨rfl, rfl⟩ : [] = a ∧ cs = b := by simpa [splitAt?] using h
      exact ⟨rfl, rfl⟩
    | case2 n => simp [splitAt?] at h
    | case3 n c cs hle ih =>
      rw [splitAt?, if_pos hle] at h
      obtain ⟨⟨before, after⟩, hsplit, heq⟩ := Option.map_eq_some_iff.mp h
      obtain ⟨rfl, rfl⟩ : c :: before = a ∧ after = b := by simpa using heq
      obtain ⟨rfl, hsize⟩ := ih hsplit
      exact ⟨rfl, by simp only [size_cons, hsize]; omega⟩
    | case4 n c cs hle => simp [splitAt?, hle] at h
  · rintro ⟨rfl, rfl⟩
    exact splitAt?_append a b

theorem isBoundary_iff {n : Nat} {cs : List Char} :
    isBoundary n cs = true ↔ ∃ a b, cs = a ++ b ∧ size a = n := by
  simp only [isBoundary, Option.isSome_iff_exists, Prod.exists, splitAt?_eq_some_iff]

theorem le_size_of_isBoundary {n : Nat} {cs : List Char} (h : isBoundary n cs = true) :
    n ≤ size cs := by
  obtain ⟨a, b, rfl, rfl⟩ := isBoundary_iff.mp h
  simp

end SentinelWrap.Text

namespace SentinelWrap.Span
open Text

attribute [ext] Span

theorem slice?_eq_some_iff {s : Span} {text covered : List Char} :
    s.slice? text = some covered ↔
      ∃ before after, text = before ++ (covered ++ after) ∧ size before = s.start ∧
        size before + size covered = s.stop := by
  constructor
  · intro h
    unfold slice? at h
    split_ifs at h with hle
    simp only [Option.bind_eq_bind, Option.bind_eq_some_iff, Prod.exists, splitAt?_eq_some_iff] at h
    obtain ⟨before, rest, ⟨rfl, hb⟩, covered', after, ⟨rfl, hc⟩, heq⟩ := h
    obtain rfl : covered' = covered := by simpa using heq
    exact ⟨before, after, rfl, hb, by unfold length at hc; omega⟩
  · rintro ⟨before, after, rfl, hb, hc⟩
    have hlen : s.length = size covered := by unfold length; omega
    unfold slice?
    rw [if_pos (by omega), ← hb, splitAt?_append, hlen]
    simp [splitAt?_append]

end SentinelWrap.Span
