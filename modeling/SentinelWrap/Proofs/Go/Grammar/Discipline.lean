import SentinelWrap.Proofs.Go.Grammar.Lockstep

/-! Checks of rules. A discipline follows a rule from state to state; where it can, and each of its
steps keeps two runs in step, so does the rule. -/
namespace SentinelWrap.Go

namespace Rule
variable {σ : Type}

def isNewLine : Rule σ → Bool
  | newLine => true
  | _ => false

private theorem eq_newLine {a : Rule σ} (h : a.isNewLine = true) : a = newLine := by
  cases a with
  | newLine => rfl
  | _ => cases h

/-- The rule that goes with another names, and if it is to be relaxed, asks for no line breaks. -/
def counterpart (relaxed : Bool) (other : σ → σ) : Rule σ → Rule σ
  | sameLine => if relaxed then empty else sameLine
  | seq a b => seq (a.counterpart relaxed other) (b.counterpart relaxed other)
  | alt a b =>
    if relaxed && a.isNewLine then b.counterpart relaxed other
    else alt (a.counterpart relaxed other) (b.counterpart relaxed other)
  | many a => many (a.counterpart relaxed other)
  | ref name => ref (other name)
  | node kind a => node kind (a.counterpart relaxed other)
  | grow kind a => grow kind (a.counterpart relaxed other)
  | apart a => apart (a.counterpart relaxed other)
  | role r a => role r (a.counterpart relaxed other)
  | longer size a => longer size (a.counterpart relaxed other)
  | a => a

theorem counterpart_self (a : Rule σ) : a.counterpart false id = a := by
  induction a <;> simp_all [counterpart]

end Rule

/-- What is known between the tokens that a rule reads. -/
structure Discipline (σ : Type) where
  State : Type
  [decEq : DecidableEq State]
  /-- The second run reads the relaxed rules of other names. -/
  relaxed : Bool
  other : σ → σ
  token : Terminal → State → Option State
  half : String → String → State → Option State
  lineEnd : State → Option State
  sameLine : State → Option State
  newLine : State → Option State
  ref : σ → State → Option State
  /-- A state that follows from either of two. -/
  join : State → State → Option State
  /-- The kinds of nodes that may be built. -/
  kind : String → Bool
  /-- What may be asked to have a size. -/
  longer : Nat → Rule σ → Bool

namespace Discipline
variable {σ : Type} (D : Discipline σ)

instance : DecidableEq D.State := D.decEq

/-- The state after a rule, if the rule is in order. -/
def check : Rule σ → D.State → Option D.State
  | .empty, s | .ahead _, s | .notAhead _, s => some s
  | .token t, s => D.token t s
  | .leaf kind t, s => if D.kind kind then D.token t s else none
  | .half first second, s => D.half first second s
  | .lineEnd, s => D.lineEnd s
  | .sameLine, s => D.sameLine s
  | .newLine, s => D.newLine s
  | .seq a b, s => (check a s).bind (check b)
  | .alt a b, s => (check a s).bind fun x => (check b s).bind (D.join x)
  | .many a, s => (check a s).bind fun x => if D.join s x = some s then some s else none
  | .ref name, s => D.ref name s
  | .node kind a, s | .grow kind a, s => if D.kind kind then check a s else none
  | .apart a, s | .role _ a, s => check a s
  | .longer size a, s => if D.longer size a then check a s else none

open Lockstep

structure Sound (rules : σ → Rule σ) (L : Lockstep) where
  /-- What a state says of the tokens that are left. -/
  meaning : D.State → L.Point
  sameHead {s : D.State} {i : L.Index} {ts ts' : List Token} : meaning s i ts ts' → SameHead ts ts'
  token {terminal : Terminal} {s s' : D.State} :
    D.token terminal s = some s' → Passes (meaning s) (meaning s') terminal
  half {first second : String} {s s' : D.State} (fuel : Nat) : D.half first second s = some s' →
    InStep rules fuel (meaning s) (meaning s') (.half first second) (.half first second)
  lineEnd {s s' : D.State} (fuel : Nat) : D.lineEnd s = some s' →
    InStep rules fuel (meaning s) (meaning s') .lineEnd .lineEnd
  sameLine {s s' : D.State} (fuel : Nat) : D.sameLine s = some s' →
    InStep rules fuel (meaning s) (meaning s') .sameLine (if D.relaxed then .empty else .sameLine)
  newLine {s s' : D.State} (fuel : Nat) : D.newLine s = some s' →
    InStep rules fuel (meaning s) (meaning s') .newLine .newLine
  /-- Where line breaks do not count, there is none to be asked for. -/
  unbroken {s s' : D.State} {i : L.Index} {t : Token} {ts ts' : List Token} : D.relaxed = true →
    D.newLine s = some s' → meaning s i (t :: ts) ts' → t.lineEnd = none
  ref {name : σ} {s s' : D.State} (fuel : Nat) : D.ref name s = some s' →
    (∀ n < fuel, ∀ a s s', D.check a s = some s' →
      InStep rules n (meaning s) (meaning s') a (a.counterpart D.relaxed D.other)) →
    InStep rules fuel (meaning s) (meaning s') (.ref name) (.ref (D.other name))
  joinLeft {x y z : D.State} {i : L.Index} {ts ts' : List Token} : D.join x y = some z →
    meaning x i ts ts' → meaning z i ts ts'
  joinRight {x y z : D.State} {i : L.Index} {ts ts' : List Token} : D.join x y = some z →
    meaning y i ts ts' → meaning z i ts ts'
  kind {kind : String} : D.kind kind = true → L.Keeps kind
  longer {size : Nat} {a : Rule σ} {s s' : D.State} : D.longer size a = true →
    D.check a s = some s' →
    L.SameSize rules size (meaning s) a (a.counterpart D.relaxed D.other)

variable {D} {rules : σ → Rule σ} {L : Lockstep}

/-- A rule that passes the check is in step with its counterpart. -/
theorem Sound.inStep (hD : D.Sound rules L) {fuel : Nat} {a : Rule σ} {s s' : D.State}
    (h : D.check a s = some s') :
    InStep rules fuel (hD.meaning s) (hD.meaning s') a (a.counterpart D.relaxed D.other) := by
  induction fuel using Nat.strongRecOn generalizing a s s' with
  | ind fuel ih =>
  cases fuel with
  | zero => exact inStep_zero
  | succ fuel =>
  have ih' {a : Rule σ} {s s' : D.State} (h : D.check a s = some s') := ih fuel (by omega) h
  have hhead (i : L.Index) (ts ts' : List Token) (h : hD.meaning s i ts ts') := hD.sameHead h
  cases a with
  | empty =>
    obtain rfl := Option.some.inj h
    exact inStep_empty
  | ahead t =>
    obtain rfl := Option.some.inj h
    refine inStep_test hhead isTest_ahead isTest_ahead fun i t t' ts ts' hm => ?_
    cases hD.sameHead hm with
    | cons hkind htext => exact ⟨Terminal.accepts_congr hkind htext _, fun _ => hm⟩
  | notAhead t =>
    obtain rfl := Option.some.inj h
    refine inStep_test hhead isTest_notAhead isTest_notAhead fun i t t' ts ts' hm => ?_
    cases hD.sameHead hm with
    | cons hkind htext => exact ⟨by rw [Terminal.accepts_congr hkind htext], fun _ => hm⟩
  | token t => exact inStep_token hhead (hD.token h)
  | leaf kind t =>
    simp only [check, Option.ite_none_right_eq_some] at h
    exact inStep_leaf hhead (hD.kind h.1) (hD.token h.2)
  | half first second => exact hD.half _ h
  | lineEnd => exact hD.lineEnd _ h
  | sameLine => exact hD.sameLine _ h
  | newLine => exact hD.newLine _ h
  | seq a b =>
    obtain ⟨x, ha, hb⟩ := Option.bind_eq_some_iff.mp h
    exact (ih' ha).seq (ih' hb)
  | alt a b =>
    obtain ⟨x, ha, h⟩ := Option.bind_eq_some_iff.mp h
    obtain ⟨y, hb, hjoin⟩ := Option.bind_eq_some_iff.mp h
    have ha' := (ih' ha).mono (fun _ _ _ h => h) fun _ _ _ => hD.joinLeft hjoin
    have hb' := (ih' hb).mono (fun _ _ _ h => h) fun _ _ _ => hD.joinRight hjoin
    rw [Rule.counterpart]
    split_ifs with hnew
    · obtain ⟨hrelaxed, hnew⟩ := Bool.and_eq_true_iff.mp hnew
      obtain rfl := Rule.eq_newLine hnew
      exact hb'.skipNewLine fun i t ts ts' hm => hD.unbroken hrelaxed ha hm
    · exact ha'.alt hb'
  | many a =>
    obtain ⟨x, ha, h⟩ := Option.bind_eq_some_iff.mp h
    simp only [Option.ite_none_right_eq_some, Option.some.injEq] at h
    obtain ⟨hjoin, rfl⟩ := h
    have hmany : D.check (.many a) s = some s := by
      simp [check, ha, hjoin]
    exact ((ih' ha).mono (fun _ _ _ h => h) fun _ _ _ => hD.joinRight hjoin).many (ih' hmany)
  | ref name => exact hD.ref _ h fun n hn a s s' h => ih n hn h
  | node kind a =>
    simp only [check, Option.ite_none_right_eq_some] at h
    exact (ih' h.2).node (hD.kind h.1)
  | grow kind a =>
    simp only [check, Option.ite_none_right_eq_some] at h
    exact (ih' h.2).grow (hD.kind h.1)
  | apart a => exact InStep.apart (ih' (show D.check a s = some s' from h))
  | role r a => exact InStep.role r (ih' (show D.check a s = some s' from h))
  | longer size a =>
    simp only [check, Option.ite_none_right_eq_some] at h
    exact (ih' h.2).longer (hD.longer h.1 h.2)

end Discipline
end SentinelWrap.Go
