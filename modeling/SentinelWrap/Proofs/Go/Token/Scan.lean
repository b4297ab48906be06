import Mathlib.Tactic.Common
import SentinelWrap.Go.Token

/-! No scan takes more characters than there are. -/
namespace SentinelWrap.Go

namespace Scan

def Bounded (s : Scan) : Prop := ∀ cs n, s cs = some n → n ≤ cs.length

@[simp] theorem bounded_one (p : Char → Bool) : Bounded (one p) := by
  intro cs n h
  cases cs with
  | nil => cases h
  | cons c cs =>
    simp only [one, Option.ite_none_right_eq_some, Option.some.injEq] at h
    simp [← h.2]

@[simp] theorem bounded_char (c : Char) : Bounded (char c) := bounded_one _

theorem Bounded.andThen {a b : Scan} (ha : Bounded a) (hb : Bounded b) : Bounded (a.andThen b) := by
  intro cs n h
  simp only [Scan.andThen, Option.bind_eq_bind, Option.bind_eq_some_iff] at h
  obtain ⟨k, hk, m, hm, rfl⟩ : ∃ k, a cs = some k ∧ ∃ m, b (cs.drop k) = some m ∧ k + m = n := by
    simpa using h
  have := ha _ _ hk
  have := hb _ _ hm
  rw [List.length_drop] at this
  omega

@[simp] theorem bounded_all {ss : List Scan} (h : ∀ s ∈ ss, Bounded s) : Bounded (all ss) := by
  induction ss with
  | nil =>
    rintro cs n ⟨⟩
    exact Nat.zero_le _
  | cons s ss ih =>
    simp only [List.forall_mem_cons] at h
    exact h.1.andThen (ih h.2)

@[simp] theorem Bounded.opt {s : Scan} (hs : Bounded s) : Bounded (opt s) := by
  intro cs n h
  obtain rfl : (s cs).getD 0 = n := Option.some.inj h
  cases hn : s cs with
  | none => simp
  | some n => exact hs _ _ hn

theorem longer_eq_some {a b : Option Nat} {n : Nat} (h : longer a b = some n) :
    a = some n ∨ b = some n := by
  cases a with
  | none => exact .inr h
  | some k =>
    cases b with
    | none => exact .inl h
    | some m =>
      have : max k m = n := Option.some.inj h
      rcases Nat.le_total k m with hle | hle
      · right; congr; omega
      · left; congr; omega

@[simp] theorem bounded_longest {ss : List Scan} (h : ∀ s ∈ ss, Bounded s) : Bounded (longest ss) := by
  intro cs n hn
  unfold longest at hn
  have hbest : ∀ m, none = some m → m ≤ cs.length := nofun
  generalize none = best at hn hbest
  induction ss generalizing best with
  | nil => exact hbest n hn
  | cons s ss ih =>
    simp only [List.forall_mem_cons] at h
    exact ih h.2 _ hn fun m hm => (longer_eq_some hm).elim (hbest m) (h.1 cs m)

private theorem digitsTail_le (p : Char → Bool) (cs : List Char) : digitsTail p cs ≤ cs.length := by
  fun_induction digitsTail p cs <;> simp only [List.length_cons, List.length_nil] at * <;> omega

@[simp] theorem bounded_digits (p : Char → Bool) : Bounded (digits p) := by
  intro cs n h
  cases cs with
  | nil => cases h
  | cons c cs =>
    simp only [digits, Option.ite_none_right_eq_some, Option.some.injEq] at h
    have := digitsTail_le p cs
    rw [← h.2, List.length_cons]
    omega

end Scan

open Scan

namespace Number

@[simp] theorem bounded_letter (c : Char) : Bounded (letter c) := bounded_one _

@[simp] theorem bounded_lowLine : Bounded lowLine := (bounded_char '_').opt

@[simp] theorem bounded_exponent (mark : Char) : Bounded (exponent mark) := by
  simp [exponent, sign, decimals]

@[simp] theorem bounded_int : Bounded int := by
  have htail : Bounded (all [lowLine, decimals]) := bounded_all (by simp [decimals])
  exact bounded_longest (by simp [hexes, htail])

@[simp] theorem bounded_float : Bounded float := bounded_longest (by simp [decimals, hexes])

theorem bounded_imaginary : Bounded imaginary := by simp [imaginary, decimals]

end Number

namespace Quoted

private theorem stringTail_le {cs : List Char} {n : Nat} (h : stringTail cs = some n) :
    n ≤ cs.length := by
  fun_induction stringTail cs generalizing n with
  | case1 => simp_all
  | case2 | case4 | case6 | case8 | case9 | case12 => cases h
  | case3 | case5 | case7 | case10 | case11 =>
    obtain ⟨m, hm, rfl⟩ := Option.map_eq_some_iff.mp h
    rename_i ih
    have := ih hm
    simp only [List.length_cons]
    omega

theorem bounded_string : Bounded string := by
  intro cs n h
  unfold string at h
  split at h
  · obtain ⟨m, hm, rfl⟩ := Option.map_eq_some_iff.mp h
    have := stringTail_le hm
    simp only [List.length_cons]
    omega
  · cases h

private theorem rawTail_le {cs : List Char} {n : Nat} (h : rawTail cs = some n) :
    n ≤ cs.length := by
  induction cs generalizing n with
  | nil => cases h
  | cons c cs ih =>
    simp only [rawTail] at h
    split_ifs at h
    · obtain rfl : 1 = n := Option.some.inj h
      simp
    · obtain ⟨m, hm, rfl⟩ := Option.map_eq_some_iff.mp h
      have := ih hm
      simp only [List.length_cons]
      omega

theorem bounded_rawString : Bounded rawString := by
  intro cs n h
  cases cs with
  | nil => cases h
  | cons c cs =>
    simp only [rawString, Option.ite_none_right_eq_some] at h
    obtain ⟨m, hm, rfl⟩ := Option.map_eq_some_iff.mp h.2
    have := rawTail_le hm
    simp only [List.length_cons]
    omega

theorem bounded_rune : Bounded rune := by
  intro cs n h
  unfold rune at h
  split at h
  all_goals first
    | cases h
    | (split_ifs at h; obtain rfl := Option.some.inj h; simp only [List.length_cons]; omega)

end Quoted

namespace Token

theorem bounded_sign : Bounded scanSign := by
  intro cs n h
  obtain ⟨text, htext, rfl⟩ := Option.map_eq_some_iff.mp h
  have hprefix : text.toList <+: cs := by simpa using List.find?_some htext
  rw [← String.length_toList]
  exact hprefix.length_le

theorem bounded_word : Bounded scanWord := by
  intro cs n h
  cases cs with
  | nil => cases h
  | cons c cs =>
    simp only [scanWord, Option.ite_none_right_eq_some, Option.some.injEq] at h
    have := (List.takeWhile_prefix Text.Identifier.isContinue (l := cs)).length_le
    rw [← h.2, List.length_cons]
    omega

private theorem commentTail_le {cs : List Char} {n : Nat} (h : commentTail cs = some n) :
    n ≤ cs.length := by
  fun_induction commentTail cs generalizing n with
  | case1 =>
    obtain rfl : 2 = n := Option.some.inj h
    simp
  | case2 c cs _ ih =>
    obtain ⟨m, hm, rfl⟩ := Option.map_eq_some_iff.mp h
    have := ih hm
    simp only [List.length_cons]
    omega
  | case3 => cases h

theorem bounded_comment : Bounded scanComment := by
  intro cs n h
  unfold scanComment at h
  split at h
  · rename_i cs
    obtain rfl := Option.some.inj h
    have := (List.takeWhile_prefix (· != '\n') (l := cs)).length_le
    simp only [List.length_cons]
    omega
  · obtain ⟨m, hm, rfl⟩ := Option.map_eq_some_iff.mp h
    have := commentTail_le hm
    simp only [List.length_cons]
    omega
  · cases h

theorem scan?_le {cs : List Char} {kind : TokenKind} {n : Nat} (h : scan? cs = some (kind, n)) :
    n ≤ cs.length := by
  have hclasses : ∀ p ∈ classes, Bounded p.2 := by
    simp [classes, bounded_word, Number.bounded_imaginary, Quoted.bounded_rune,
      Quoted.bounded_string, Quoted.bounded_rawString, bounded_sign]
  unfold scan? at h
  have hbest : ∀ p : TokenKind × Nat, none = some p → p.2 ≤ cs.length := nofun
  generalize none = best at h hbest
  generalize classes = scans at h hclasses
  induction scans generalizing best with
  | nil => exact hbest _ h
  | cons p scans ih =>
    simp only [List.forall_mem_cons] at hclasses
    refine ih _ (fun q hq => ?_) h hclasses.2
    dsimp only at hq
    split at hq
    · split_ifs at hq
      · obtain rfl := Option.some.inj hq
        exact hclasses.1 _ _ ‹_›
      · exact hbest q hq
    · obtain rfl := Option.some.inj hq
      exact hclasses.1 _ _ ‹_›
    · exact hbest q hq

end Token
end SentinelWrap.Go
