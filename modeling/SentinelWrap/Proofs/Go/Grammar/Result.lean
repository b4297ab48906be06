import SentinelWrap.Proofs.Go.Grammar.Calls
import SentinelWrap.Proofs.Go.Grammar.Consumed
import SentinelWrap.Proofs.Go.Grammar.Single

/-! How an expression that is no operation was read: as an operand and suffixes, at the end of which
every way to go on was rejected. -/
namespace SentinelWrap.Go

namespace Rule
variable {σ : Type} {rules : σ → Rule σ} {a : Rule σ} {parts last : List Tree} {ts us : List Token}
  {fuel : Nat}

private theorem many_ne_rejected : run rules fuel (.many a) parts ts ≠ .rejected := by
  cases fuel with
  | zero => rintro ⟨⟩
  | succ fuel =>
    rw [run]
    cases (run rules fuel a parts ts).andThen (run rules fuel (.many a)) <;> rintro ⟨⟩

/-- A repetition ends where its rule is rejected. -/
theorem exists_rejected_of_many (h : run rules fuel (.many a) parts ts = .read last us) :
    ∃ n < fuel, run rules n a last us = .rejected := by
  induction fuel generalizing parts ts with
  | zero => cases h
  | succ fuel ih =>
    rcases Reading.orElse_eq_read.mp h with hstep | ⟨hstop, heq⟩
    · obtain ⟨mid, vs, -, hlater⟩ := Reading.andThen_eq_read.mp hstep
      obtain ⟨n, hn, hrejected⟩ := ih hlater
      exact ⟨n, by omega, hrejected⟩
    · obtain ⟨rfl, rfl⟩ := Reading.read.inj heq
      refine ⟨fuel, by omega, ?_⟩
      cases ha : run rules fuel a parts ts with
      | starved => simp [ha] at hstop
      | rejected => rfl
      | read mid vs =>
        rw [ha, Reading.read_andThen] at hstop
        exact absurd hstop many_ne_rejected

/-- A repetition reads nothing, or what its rule reads comes last. -/
theorem Derives.many_eq_or {P : List Tree → Prop}
    (hstep : ∀ parts ts last us, Derives rules a parts ts last us → P last)
    (h : Derives rules (.many a) parts ts last us) : last = parts ∧ us = ts ∨ P last := by
  generalize hrule : Rule.many a = rule at h
  induction h with
  | manyStop => exact .inl ⟨rfl, rfl⟩
  | manyStep hfirst _ _ ih =>
    obtain rfl := Rule.many.inj hrule
    rcases ih hrule with ⟨rfl, rfl⟩ | hlast
    · exact .inr (hstep _ _ _ _ hfirst)
    · exact .inr hlast
  | _ => cases hrule

end Rule

namespace Grammar
open Rule

variable {follow : Follow} {X : Tree} {ts us : List Token} {fuel : Nat}

private theorem exists_of_run_binary {level : Nat}
    (h : run Symbol.rule fuel (.ref (.binary follow level)) [] ts = .read [X] us)
    (hX : X.kind ≠ "binary_expression") :
    (∃ n < fuel, run Symbol.rule n (side level follow) [] ts = .read [X] us) ∧
      ∃ n < fuel, run Symbol.rule n (binaryTail follow level) [X] us = .rejected := by
  match fuel with
  | 0 | 1 | 2 => cases h
  | fuel + 3 =>
    obtain ⟨more, vs, hseq, hread⟩ := Reading.andThen_eq_read.mp h
    obtain ⟨hmore, rfl⟩ := Reading.read.inj hread
    obtain rfl : more = [X] := by simpa using hmore
    obtain ⟨mid, ws, hside, htails⟩ := Reading.andThen_eq_read.mp hseq
    obtain ⟨n, hn, hrejected⟩ := exists_rejected_of_many htails
    refine ⟨⟨fuel, by omega, ?_⟩, n, by omega, hrejected⟩
    have hstep : ∀ parts ts last us, Derives Symbol.rule (binaryTail follow level) parts ts last us →
        ∃ cs, last = [.node "binary_expression" .plain cs] := by
      intro parts ts last us h
      cases h with
      | seq _ h =>
        cases h
        exact ⟨_, rfl⟩
    rcases (derives_of_run htails).many_eq_or hstep with ⟨rfl, rfl⟩ | ⟨cs, hcs⟩
    · exact hside
    · obtain rfl : X = .node "binary_expression" .plain cs := by simpa using hcs
      exact absurd rfl hX

private theorem exists_of_run_level {level : Nat} (hlevel : level ≤ 5)
    (h : run Symbol.rule fuel (.ref (.binary follow level)) [] ts = .read [X] us)
    (hX : X.kind ≠ "binary_expression") :
    (∃ n < fuel, run Symbol.rule n (.ref (.unary follow)) [] ts = .read [X] us) ∧
      ∀ higher, level ≤ higher ∧ higher ≤ 5 →
        ∃ n < fuel, run Symbol.rule n (binaryTail follow higher) [X] us = .rejected := by
  induction hgap : 5 - level generalizing level fuel with
  | zero =>
    obtain rfl : level = 5 := by omega
    obtain ⟨hunary, htail⟩ := exists_of_run_binary h hX
    refine ⟨hunary, fun higher hhigher => ?_⟩
    obtain rfl : higher = 5 := by omega
    exact htail
  | succ gap ih =>
    obtain ⟨⟨n, hn, hside⟩, htail⟩ := exists_of_run_binary h hX
    rw [side, if_pos (by omega)] at hside
    obtain ⟨⟨k, hk, hunary⟩, htails⟩ := ih (by omega) hside (by omega)
    refine ⟨⟨k, by omega, hunary⟩, fun higher hhigher => ?_⟩
    rcases Nat.eq_or_lt_of_le hhigher.1 with rfl | hlt
    · exact htail
    · obtain ⟨l, hl, hrejected⟩ := htails higher ⟨hlt, hhigher.2⟩
      exact ⟨l, by omega, hrejected⟩

private theorem exists_of_run_expression
    (h : run Symbol.rule fuel (.ref (.expression follow)) [] ts = .read [X] us)
    (hX : X.kind ≠ "binary_expression") :
    (∃ n < fuel, run Symbol.rule n (.ref (.unary follow)) [] ts = .read [X] us) ∧
      ∀ level, 1 ≤ level ∧ level ≤ 5 →
        ∃ n < fuel, run Symbol.rule n (binaryTail follow level) [X] us = .rejected := by
  cases fuel with
  | zero => cases h
  | succ fuel =>
    obtain ⟨⟨n, hn, hunary⟩, htails⟩ := exists_of_run_level (by omega) h hX
    refine ⟨⟨n, by omega, hunary⟩, fun level hlevel => ?_⟩
    obtain ⟨m, hm, hrejected⟩ := htails level hlevel
    exact ⟨m, by omega, hrejected⟩

private theorem exists_of_run_unary
    (h : run Symbol.rule fuel (.ref (.unary follow)) [] ts = .read [X] us)
    (hX : X.kind ≠ "unary_expression") :
    ∃ n < fuel, run Symbol.rule n (.ref (.primary follow)) [] ts = .read [X] us := by
  match fuel with
  | 0 | 1 | 2 => cases h
  | fuel + 3 =>
    rcases Reading.orElse_eq_read.mp h with h | ⟨-, h⟩
    · obtain ⟨mid, vs, htest, hprimary⟩ := Reading.andThen_eq_read.mp h
      have htests := derives_of_run htest
      have heq : mid = [] ∧ vs = ts := by
        cases htests with
        | altLeft h | altRight h => exact h.eq_of_isTest rfl
      obtain ⟨rfl, rfl⟩ := heq
      exact ⟨fuel, by omega, hprimary⟩
    · rcases Reading.orElse_eq_read.mp h with h | ⟨-, h⟩
      · have hderives := derives_of_run h
        cases hderives
        exact absurd rfl hX
      · exact ⟨fuel, by omega, h⟩

/-- One suffix after the other, each of them on the line that the part before it ends on. -/
inductive Suffixes : List Tree → List Token → List Tree → List Token → Prop
  | nil {parts : List Tree} {ts : List Token} : Suffixes parts ts parts ts
  | snoc {parts mid last : List Tree} {t : Token} {ts us vs : List Token} {fuel : Nat}
    (earlier : Suffixes parts ts mid (t :: us)) (hline : t.lineEnd = none)
    (hrun : run Symbol.rule fuel (.ref (.suffix closing)) mid (t :: us) = .read last vs) :
    Suffixes parts ts last vs

theorem Suffixes.of_many {parts mid last : List Tree} {vs : List Token}
    (hearlier : Suffixes parts ts mid vs)
    (h : run Symbol.rule fuel (.many (suffixTail closing)) mid vs = .read last us) :
    Suffixes parts ts last us := by
  induction fuel generalizing mid vs with
  | zero => cases h
  | succ fuel ih =>
    rcases Reading.orElse_eq_read.mp h with hstep | ⟨-, heq⟩
    · obtain ⟨next, ws, htail, hlater⟩ := Reading.andThen_eq_read.mp hstep
      refine ih ?_ hlater
      match fuel with
      | 0 | 1 => cases htail
      | fuel + 2 =>
        obtain ⟨mid', vs', hjoined, hsuffix⟩ := Reading.andThen_eq_read.mp htail
        have hderives : Derives Symbol.rule .sameLine mid vs mid' vs' := derives_of_run hjoined
        cases hderives with
        | sameLine hline => exact .snoc hearlier hline hsuffix
    · obtain ⟨rfl, rfl⟩ := Reading.read.inj heq
      exact hearlier

private theorem exists_of_run_primary
    (h : run Symbol.rule fuel (.ref (.primary closing)) [] ts = .read [X] us) :
    (∃ n Y vs, run Symbol.rule n (.ref (.operand closing)) [] ts = .read [Y] vs ∧
      Suffixes [Y] vs [X] us) ∧
      ∃ n < fuel, run Symbol.rule n (suffixTail closing) [X] us = .rejected := by
  match fuel with
  | 0 | 1 | 2 => cases h
  | fuel + 3 =>
    obtain ⟨more, vs, hseq, hread⟩ := Reading.andThen_eq_read.mp h
    obtain ⟨hmore, rfl⟩ := Reading.read.inj hread
    obtain rfl : more = [X] := by simpa using hmore
    obtain ⟨mid, ws, hoperand, hsuffixes⟩ := Reading.andThen_eq_read.mp hseq
    obtain ⟨n, hn, hrejected⟩ := exists_rejected_of_many hsuffixes
    have hlength : mid.length = 1 := (derives_of_run hoperand).length_eq count_rule rfl
    obtain ⟨Y, rfl⟩ := List.length_eq_one_iff.mp hlength
    exact ⟨⟨fuel, Y, ws, hoperand, .of_many .nil hsuffixes⟩, n, by omega, hrejected⟩

structure HaltsWithin (fuel : Nat) (us : List Token) : Prop where
  suffix : ∃ n < fuel, ∃ parts, run Symbol.rule n (suffixTail closing) parts us = .rejected
  binary (level : Nat) (h : 1 ≤ level ∧ level ≤ 5) :
    ∃ n < fuel, ∃ parts, run Symbol.rule n (binaryTail closing level) parts us = .rejected

/-- A result that is no operation is an operand with suffixes. -/
theorem exists_of_run_result
    (h : run Symbol.rule fuel (.ref (.expression closing)) [] ts = .read [X] us)
    (hX : X.kind ≠ "binary_expression" ∧ X.kind ≠ "unary_expression") :
    HaltsWithin fuel us ∧ ∃ n Y vs, run Symbol.rule n (.ref (.operand closing)) [] ts = .read [Y] vs ∧
      Suffixes [Y] vs [X] us := by
  obtain ⟨⟨n, hn, hunary⟩, htails⟩ := exists_of_run_expression h hX.1
  obtain ⟨m, hm, hprimary⟩ := exists_of_run_unary hunary hX.2
  obtain ⟨hoperand, k, hk, hsuffix⟩ := exists_of_run_primary hprimary
  refine ⟨⟨⟨k, by omega, _, hsuffix⟩, fun level hlevel => ?_⟩, hoperand⟩
  obtain ⟨l, hl, hbinary⟩ := htails level hlevel
  exact ⟨l, hl, _, hbinary⟩

end Grammar
end SentinelWrap.Go
