import SentinelWrap.Proofs.Go.Grammar.Brackets

/-! Rules read outside of brackets. There a discipline may know more than the number of open brackets,
and has to keep off the walls; inside of brackets there are none. -/
namespace SentinelWrap.Go

/-- Inside of brackets, of which `n` may be closed before the last one, or outside of all. -/
inductive Stance (α : Type)
  | inside (n : Nat)
  | outside (known : α)
deriving DecidableEq

/-- What is known outside of brackets. -/
structure Outskirts (α : Type) where
  relaxed : Bool
  other : Symbol → Symbol
  /-- After a token that is no bracket. -/
  token : TokenSort → α → Option α
  opens : α → Bool
  /-- After the last bracket is closed. -/
  closed : α
  half : α → Option α
  sameLine : α → Option α
  newLine : α → Option α
  ref : Symbol → α → Option α
  join : α → α → Option α

namespace Outskirts
variable {α : Type} (O : Outskirts α)

def pass : TokenSort → Stance α → Option (Stance α)
  | .opener, .inside n => some (.inside (n + 1))
  | .opener, .outside known => if O.opens known then some (.inside 0) else none
  | .closer, .inside (n + 1) => some (.inside n)
  | .closer, .inside 0 => some (.outside O.closed)
  | .closer, .outside _ => none
  | _, .inside n => some (.inside n)
  | sort, .outside known => (O.token sort known).map .outside

/-- Line breaks are not asked for inside of brackets where the rules are relaxed. -/
def line (f : α → Option α) : Stance α → Option (Stance α)
  | .inside n => if O.relaxed then none else some (.inside n)
  | .outside known => (f known).map .outside

def join? : Stance α → Stance α → Option (Stance α)
  | .inside m, .inside n => if m = n then some (.inside n) else none
  | .outside known, .outside other => (O.join known other).map .outside
  | _, _ => none

def ref? (name : Symbol) : Stance α → Option (Stance α)
  | .inside n => if name.isInner && O.other name = name then some (.inside n) else none
  | .outside known => (O.ref name known).map .outside

def half? : Stance α → Option (Stance α)
  | .inside n => some (.inside n)
  | .outside known => (O.half known).map .outside

def lineEnd? : Stance α → Option (Stance α)
  | .inside n => some (.inside n)
  | .outside _ => none

abbrev discipline [DecidableEq α] : Discipline Symbol where
  State := Stance α
  relaxed := O.relaxed
  other := O.other
  token terminal s := if terminal.isFree then terminal.sort?.bind (O.pass · s) else none
  half first second s := if (first, second) ∈ halves then O.half? s else none
  lineEnd := lineEnd?
  sameLine := O.line O.sameLine
  newLine := O.line O.newLine
  ref := O.ref?
  join := O.join?
  kind := isKept
  longer _ _ := false

open Lockstep

/-- What is known keeps the runs on a track off its walls. -/
structure Sound [DecidableEq α] (T : Track) where
  means : α → Place → List Token → Prop
  token {sort : TokenSort} {known known' : α} {place : Place} {t : Token} {ts : List Token} :
    O.token sort known = some known' → means known place (t :: ts) → t.sort = sort →
    ¬T.Wall ⟨0, place⟩ (t :: ts) ∧ means known' (place.next sort) ts
  opens {known : α} {place : Place} {t : Token} {ts : List Token} : O.opens known = true →
    means known place (t :: ts) → t.sort = .opener → ¬T.Wall ⟨0, place⟩ (t :: ts)
  closed (ts : List Token) : means O.closed .other ts
  half {known known' : α} {place : Place} {t u : Token} {ts : List Token} :
    O.half known = some known' → means known place (t :: ts) → t.sort = .plain →
    ¬T.Wall ⟨0, place⟩ (t :: ts) ∧ means known' .cut (u :: ts)
  sameLine {known known' : α} {place : Place} {t : Token} {ts : List Token} :
    O.sameLine known = some known' → means known place (t :: ts) →
    place ≠ .start ∧ (t.lineEnd = none → means known' place (t :: ts))
  newLine {known known' : α} {place : Place} {t : Token} {ts : List Token} :
    O.newLine known = some known' → means known place (t :: ts) →
    place ≠ .start ∧ means known' place (t :: ts)
  /-- Where the rules are relaxed, there is no line break to be asked for. -/
  unbroken {known : α} {place : Place} {i : T.Index} {ts ts' : List Token} : O.relaxed = true →
    (O.sameLine known).isSome ∨ (O.newLine known).isSome → T.Ahead ⟨0, place⟩ i ts ts' →
    means known place ts → ∃ t rest, ts = t :: rest ∧ t.lineEnd = none
  ref {name : Symbol} {known known' : α} : O.ref name known = some known' →
    O.discipline.check name.rule (.outside known) = some (.outside known') ∧
      (O.other name).rule = name.rule.counterpart O.relaxed O.other
  joinLeft {x y z : α} {place : Place} {ts : List Token} : O.join x y = some z →
    means x place ts → means z place ts
  joinRight {x y z : α} {place : Place} {ts : List Token} : O.join x y = some z →
    means y place ts → means z place ts

namespace Sound
variable {O} [DecidableEq α] {T : Track} (hO : O.Sound T)

def Outside (known : α) : T.Point := fun i ts ts' =>
  ∃ place, T.Ahead ⟨0, place⟩ i ts ts' ∧ hO.means known place ts

def point : Stance α → T.Point
  | .inside n => T.Inside n
  | .outside known => hO.Outside known

theorem sameHead {s : Stance α} {i : T.Index} {ts ts' : List Token} (h : hO.point s i ts ts') :
    SameHead ts ts' := by
  cases s with
  | inside n => exact T.sameHead h.choose_spec
  | outside known => exact T.sameHead h.choose_spec.1

/-- A token outside of brackets. -/
theorem exists_pass {sort : TokenSort} {known : α} {s : Stance α} {i : T.Index} {t t' : Token}
    {ts ts' : List Token} (h : O.pass sort (.outside known) = some s)
    (hpoint : hO.Outside known i (t :: ts) (t' :: ts')) (hsort : t.sort = sort) (hfree : t.IsFree) :
    ∃ j, hO.point s j ts ts' ∧ T.Read i j [.token t] [.token t'] := by
  obtain ⟨place, hahead, hmeans⟩ := hpoint
  cases sort with
  | closer => cases h
  | opener =>
    obtain ⟨hopens, hs⟩ := Option.ite_none_right_eq_some.mp h
    obtain rfl := Option.some.inj hs
    obtain ⟨j, hnext, hread⟩ := T.pass hahead (hO.opens hopens hmeans hsort) hfree
    rw [hsort] at hnext
    exact ⟨j, ⟨.other, hnext⟩, hread⟩
  | _ =>
    obtain ⟨known', htoken, rfl⟩ := Option.map_eq_some_iff.mp h
    obtain ⟨hwall, hmeans'⟩ := hO.token htoken hmeans hsort
    obtain ⟨j, hnext, hread⟩ := T.pass hahead hwall hfree
    rw [hsort] at hnext
    exact ⟨j, ⟨_, hnext, hmeans'⟩, hread⟩

/-- A token inside of brackets. -/
theorem exists_pass_inside (hT : T.Guards) {sort : TokenSort} {n : Nat} {s : Stance α}
    {i : T.Index} {t t' : Token} {ts ts' : List Token} (h : O.pass sort (.inside n) = some s)
    (hpoint : T.Inside n i (t :: ts) (t' :: ts')) (hsort : t.sort = sort) (hfree : t.IsFree) :
    ∃ j, hO.point s j ts ts' ∧ T.Read i j [.token t] [.token t'] := by
  obtain ⟨place, hahead⟩ := hpoint
  obtain ⟨j, hnext, hread⟩ := T.pass hahead (fun hw => nomatch hT.depth_eq_zero hw) hfree
  rw [hsort] at hnext
  refine ⟨j, ?_, hread⟩
  cases sort with
  | closer =>
    cases n with
    | zero =>
      obtain rfl := Option.some.inj h
      exact ⟨.other, hnext, hO.closed ts⟩
    | succ n =>
      obtain rfl := Option.some.inj h
      exact ⟨.other, hnext⟩
  | _ =>
    obtain rfl := Option.some.inj h
    exact ⟨.other, hnext⟩

theorem passes (hT : T.Guards) {terminal : Terminal} {s s' : Stance α}
    (h : O.discipline.token terminal s = some s') : Passes (hO.point s) (hO.point s') terminal := by
  intro i t t' ts ts' hpoint haccepts
  obtain ⟨hfree, hpass⟩ := Option.ite_none_right_eq_some.mp h
  obtain ⟨sort, hsort, hs⟩ := Option.bind_eq_some_iff.mp hpass
  have hsort := Terminal.sort_of_accepts haccepts hsort
  have hfree := Terminal.free_of_accepts haccepts hfree
  cases s with
  | inside n => exact hO.exists_pass_inside hT hs hpoint hsort hfree
  | outside known => exact hO.exists_pass hs hpoint hsort hfree

theorem sort_halves {t : Token} {first second : String} (hkind : t.kind = .sign)
    (htext : t.text = first ++ second) (hmem : (first, second) ∈ halves) : t.sort = .plain := by
  simp only [Token.sort, hkind, htext]
  exact halves_cases hmem rfl rfl rfl rfl rfl

theorem inStep_halves (hT : T.Guards) {first second : String} {s s' : Stance α} (fuel : Nat)
    (h : O.discipline.half first second s = some s') :
    InStep Symbol.rule fuel (hO.point s) (hO.point s') (.half first second) (.half first second) := by
  obtain ⟨hmem, hs⟩ := Option.ite_none_right_eq_some.mp h
  refine inStep_half (fun _ _ _ h => hO.sameHead h) fun i t t' ts ts' hpoint hkind htext => ?_
  have hsort := sort_halves hkind htext hmem
  cases s with
  | inside n =>
    obtain rfl := Option.some.inj hs
    obtain ⟨place, hahead⟩ := hpoint
    obtain ⟨j, hnext, hread⟩ :=
      T.half hahead (fun hw => nomatch hT.depth_eq_zero hw) hkind htext hmem
    exact ⟨j, ⟨_, hnext⟩, hread⟩
  | outside known =>
    obtain ⟨known', hhalf, rfl⟩ := Option.map_eq_some_iff.mp hs
    obtain ⟨place, hahead, hmeans⟩ := hpoint
    obtain ⟨hwall, hmeans'⟩ := hO.half hhalf hmeans hsort
    obtain ⟨j, hnext, hread⟩ := T.half hahead hwall hkind htext hmem
    exact ⟨j, ⟨_, hnext, hmeans'⟩, hread⟩

theorem inStep_sameLine {s s' : Stance α} (fuel : Nat) (h : O.line O.sameLine s = some s') :
    InStep Symbol.rule fuel (hO.point s) (hO.point s') .sameLine
      (if O.relaxed then .empty else .sameLine) := by
  cases s with
  | inside n =>
    obtain ⟨hrelaxed, hs⟩ := Option.ite_none_left_eq_some.mp h
    obtain rfl := Option.some.inj hs
    rw [if_neg hrelaxed]
    refine inStep_test (fun _ _ _ h => T.sameHead h.choose_spec) isTest_sameLine isTest_sameLine ?_
    rintro i t t' ts ts' ⟨place, hahead⟩
    have hmark := T.marks hahead nofun
    exact ⟨by simpa [← Option.not_isSome] using hmark, fun _ => ⟨place, hahead⟩⟩
  | outside known =>
    obtain ⟨known', hline, rfl⟩ := Option.map_eq_some_iff.mp h
    split_ifs with hrelaxed
    · cases fuel with
      | zero => exact inStep_zero
      | succ fuel =>
        refine inStep_succ fun i ts ts' hpoint more hmore parts parts' => ?_
        obtain ⟨place, hahead, hmeans⟩ := hpoint
        obtain ⟨t, rest, rfl, hnone⟩ := hO.unbroken hrelaxed (by simp [hline]) hahead hmeans
        have hmeans' := (hO.sameLine hline hmeans).2 hnone
        simp only [Rule.run, hnone]
        exact ⟨i, _, _, rfl, ⟨place, hahead, hmeans'⟩, fun _ hk => hk⟩
    · refine inStep_test (fun _ _ _ h => hO.sameHead h) isTest_sameLine isTest_sameLine ?_
      rintro i t t' ts ts' ⟨place, hahead, hmeans⟩
      obtain ⟨hstart, hmeans'⟩ := hO.sameLine hline hmeans
      have hmark := T.marks hahead (by simpa using hstart)
      refine ⟨by simpa [← Option.not_isSome] using hmark, fun hnone => ⟨place, hahead, hmeans' ?_⟩⟩
      simpa using hnone

theorem inStep_newLine {s s' : Stance α} (fuel : Nat) (h : O.line O.newLine s = some s') :
    InStep Symbol.rule fuel (hO.point s) (hO.point s') .newLine .newLine := by
  refine inStep_test (fun _ _ _ h => hO.sameHead h) isTest_newLine isTest_newLine ?_
  intro i t t' ts ts' hpoint
  cases s with
  | inside n =>
    obtain ⟨-, hs⟩ := Option.ite_none_left_eq_some.mp h
    obtain rfl := Option.some.inj hs
    exact ⟨T.marks hpoint.choose_spec nofun, fun _ => hpoint⟩
  | outside known =>
    obtain ⟨known', hline, rfl⟩ := Option.map_eq_some_iff.mp h
    obtain ⟨place, hahead, hmeans⟩ := hpoint
    obtain ⟨hstart, hmeans'⟩ := hO.newLine hline hmeans
    exact ⟨T.marks hahead (by simpa using hstart), fun _ => ⟨place, hahead, hmeans'⟩⟩

theorem lineEnd_eq_none {s s' : Stance α} {i : T.Index} {t : Token} {ts ts' : List Token}
    (hrelaxed : O.relaxed = true) (h : O.line O.newLine s = some s')
    (hpoint : hO.point s i (t :: ts) ts') : t.lineEnd = none := by
  cases s with
  | inside n => simp [line, hrelaxed] at h
  | outside known =>
    obtain ⟨known', hline, rfl⟩ := Option.map_eq_some_iff.mp h
    obtain ⟨place, hahead, hmeans⟩ := hpoint
    obtain ⟨_, _, heq, hnone⟩ := hO.unbroken hrelaxed (by simp [hline]) hahead hmeans
    obtain ⟨rfl, rfl⟩ := List.cons.inj heq
    exact hnone

theorem inStep_ref (hT : T.Guards) {name : Symbol} {s s' : Stance α} (fuel : Nat)
    (h : O.ref? name s = some s')
    (ih : ∀ n < fuel, ∀ a s s', O.discipline.check a s = some s' →
      InStep Symbol.rule n (hO.point s) (hO.point s') a (a.counterpart O.relaxed O.other)) :
    InStep Symbol.rule fuel (hO.point s) (hO.point s') (.ref name) (.ref (O.other name)) := by
  cases s with
  | inside n =>
    obtain ⟨hname, hs⟩ := Option.ite_none_right_eq_some.mp h
    simp only [Bool.and_eq_true, decide_eq_true_eq] at hname
    obtain rfl := Option.some.inj hs
    rw [hname.2]
    exact Track.inStep_inside hT (by simp [Discipline.check, hname.1])
  | outside known =>
    obtain ⟨known', hname, rfl⟩ := Option.map_eq_some_iff.mp h
    obtain ⟨hcheck, hrule⟩ := hO.ref hname
    cases fuel with
    | zero => exact inStep_zero
    | succ fuel =>
      have hstep := ih fuel (by omega) _ _ _ hcheck
      rw [← hrule] at hstep
      exact hstep.ref

def toDiscipline (hT : T.Guards) : O.discipline.Sound Symbol.rule T.toLockstep where
  meaning := hO.point
  sameHead := hO.sameHead
  token := hO.passes hT
  half := hO.inStep_halves hT
  lineEnd {s} {_} fuel h := by
    cases s with
    | inside n =>
      obtain rfl := Option.some.inj h
      exact Track.inStep_inside hT rfl
    | outside known => cases h
  sameLine := hO.inStep_sameLine
  newLine := hO.inStep_newLine
  unbroken := hO.lineEnd_eq_none
  ref := hO.inStep_ref hT
  joinLeft {x} {y} {_} {_} {_} {_} h hm := by
    cases x with
    | inside m =>
      cases y with
      | inside n =>
        obtain ⟨rfl, hz⟩ := Option.ite_none_right_eq_some.mp h
        obtain rfl := Option.some.inj hz
        exact hm
      | outside known => cases h
    | outside known =>
      cases y with
      | inside n => cases h
      | outside other =>
        obtain ⟨known', hjoin, rfl⟩ := Option.map_eq_some_iff.mp h
        obtain ⟨place, hahead, hmeans⟩ := hm
        exact ⟨place, hahead, hO.joinLeft hjoin hmeans⟩
  joinRight {x} {y} {_} {_} {_} {_} h hm := by
    cases x with
    | inside m =>
      cases y with
      | inside n =>
        obtain ⟨rfl, hz⟩ := Option.ite_none_right_eq_some.mp h
        obtain rfl := Option.some.inj hz
        exact hm
      | outside known => cases h
    | outside known =>
      cases y with
      | inside n => cases h
      | outside other =>
        obtain ⟨known', hjoin, rfl⟩ := Option.map_eq_some_iff.mp h
        obtain ⟨place, hahead, hmeans⟩ := hm
        exact ⟨place, hahead, hO.joinRight hjoin hmeans⟩
  kind := hT.keeps
  longer h := nomatch h

theorem inStep (hT : T.Guards) {fuel : Nat} {a : Rule Symbol} {s s' : Stance α}
    (h : O.discipline.check a s = some s') :
    InStep Symbol.rule fuel (hO.point s) (hO.point s') a (a.counterpart O.relaxed O.other) :=
  (hO.toDiscipline hT).inStep h

end Sound
end Outskirts
end SentinelWrap.Go
