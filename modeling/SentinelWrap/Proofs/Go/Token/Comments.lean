import SentinelWrap.Proofs.Go.Token.Relex
import SentinelWrap.Text.Whitespace

/-! Texts without their comments. What stands between two tokens is white space and comments, so
without these nothing is left of it; and a comment is never white space alone. -/
namespace SentinelWrap

def Text.squeezed (cs : List Char) : List Char := cs.filter fun c => !isWhitespace c

theorem Text.squeezed_append (a b : List Char) : squeezed (a ++ b) = squeezed a ++ squeezed b :=
  List.filter_append ..

namespace Go.Token
open Text (squeezed squeezed_append isWhitespace)

/-- A text that holds no literals, without the comments in it. -/
def uncommented (cs : List Char) : List Char :=
  match _h : scanComment cs with
  | some n => uncommented (cs.drop n)
  | none =>
    match cs with
    | [] => []
    | c :: rest => c :: uncommented rest
termination_by cs.length
decreasing_by
  · obtain ⟨u, rfl, hn⟩ := exists_of_scanComment ‹_›
    simp only [List.length_drop, List.length_cons]
    omega
  · simp

variable {x y after : List Char} {offset : Nat} {lineEnd mark : Option Nat}

theorem uncommented_comment (h : scanComment (x ++ y) = some x.length) :
    uncommented (x ++ y) = uncommented y := by
  rw [uncommented.eq_def]
  split
  · rename_i n hn
    obtain rfl := Option.some.inj (h.symm.trans hn)
    rw [List.drop_left]
  · rename_i hn
    cases h.symm.trans hn

theorem uncommented_cons {c : Char} (h : scanComment (c :: y) = none) :
    uncommented (c :: y) = c :: uncommented y := by
  rw [uncommented.eq_def]
  split
  · rename_i n hn
    cases h.symm.trans hn
  · rfl

@[simp] theorem uncommented_nil : uncommented [] = [] := by
  rw [uncommented.eq_def]
  rfl

theorem scanComment_of_ne {c : Char} (h : c ≠ '/') : scanComment (c :: y) = none := by
  cases hscan : scanComment (c :: y) with
  | none => rfl
  | some n =>
    obtain ⟨u, heq, -⟩ := exists_of_scanComment hscan
    exact absurd (List.cons.inj heq).1 h

theorem uncommented_append (h : '/' ∉ x) : uncommented (x ++ y) = x ++ uncommented y := by
  induction x with
  | nil => rfl
  | cons c x ih =>
    obtain ⟨hc, hx⟩ := List.ne_and_not_mem_of_not_mem_cons h
    rw [List.cons_append, uncommented_cons (scanComment_of_ne hc.symm), ih hx, List.cons_append]

theorem isWhitespace_of_isBlank {c : Char} (h : isBlank c = true) : isWhitespace c = true := by
  simp only [isBlank, Bool.or_eq_true, beq_iff_eq] at h
  rcases h with ((rfl | rfl) | rfl) | rfl <;> rfl

/-- Nothing but white space and comments stands before a token. -/
theorem Spells.squeezed_uncommented (h : Spells after offset lineEnd x [] mark) (hy : y <+: after) :
    squeezed (uncommented (x ++ y)) = squeezed (uncommented y) := by
  generalize hts : ([] : List Token) = tokens at h
  induction h with
  | nil => rfl
  | @blank offset lineEnd mark c x ts hblank _ ih =>
    have hslash : c ≠ '/' := by
      rintro rfl
      cases hblank
    have hspace := isWhitespace_of_isBlank hblank
    rw [List.cons_append, uncommented_cons (scanComment_of_ne hslash), squeezed,
      List.filter_cons_of_neg (by simp [hspace]), ← squeezed]
    exact ih hts
  | @comment offset lineEnd mark comment x ts hcomment _ ih =>
    have hhead : ∀ c ∈ (x ++ y).head?, c ∈ (x ++ after).head? := by
      obtain ⟨more, rfl⟩ := hy
      intro c hc
      rw [← List.append_assoc, List.head?_append]
      rw [Option.mem_def.mp hc]
      rfl
    rw [List.append_assoc, uncommented_comment (scanComment_congr hhead hcomment)]
    exact ih hts
  | token => cases hts

/-- To take a comment away takes more than white space away. -/
theorem length_squeezed_uncommented (cs : List Char) :
    (squeezed (uncommented cs)).length ≤ (squeezed cs).length ∧
      ((squeezed (uncommented cs)).length = (squeezed cs).length → uncommented cs = cs) := by
  fun_induction uncommented cs with
  | case1 cs n hn ih =>
    obtain ⟨u, rfl, hpos⟩ := exists_of_scanComment hn
    obtain ⟨n, rfl⟩ := Nat.exists_eq_succ_of_ne_zero (Nat.ne_of_gt hpos)
    have hslash : squeezed ('/' :: u) = '/' :: squeezed u := rfl
    have hle : (squeezed (u.drop n)).length ≤ (squeezed u).length :=
      ((List.drop_sublist n u).filter _).length_le
    rw [List.drop_succ_cons] at ih ⊢
    rw [hslash, List.length_cons]
    exact ⟨by omega, fun heq => absurd heq (by omega)⟩
  | case2 => exact ⟨Nat.le_refl _, fun _ => rfl⟩
  | case3 c rest hnone ih =>
    have hcons (cs : List Char) :
        (squeezed (c :: cs)).length = (squeezed [c]).length + (squeezed cs).length := by
      rw [← List.singleton_append, squeezed_append, List.length_append]
    rw [hcons, hcons rest]
    exact ⟨by omega, fun heq => congrArg _ (ih.2 (by omega))⟩

end Go.Token
end SentinelWrap
