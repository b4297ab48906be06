import Mathlib.Tactic.Common
import SentinelWrap.Go.Grammar

/-!
What a terminal accepts, and how runs end. A run that has not used up its fuel ends the same way
with more fuel.
-/
namespace SentinelWrap.Go

namespace Terminal
variable {text : String} {reserved : List String} {k : TokenKind} {t : Token}

@[simp] theorem accepts_word :
    (word text).accepts t = true ↔ t.kind = .word ∧ t.text = text := by
  simp only [accepts, Bool.and_eq_true, beq_iff_eq]

@[simp] theorem accepts_name : (name reserved).accepts t = true ↔
    t.kind = .word ∧ keywords.contains t.text = false ∧ reserved.contains t.text = false := by
  simp only [accepts, Bool.and_eq_true, beq_iff_eq, Bool.not_eq_true', and_assoc]

@[simp] theorem accepts_sign :
    (sign text).accepts t = true ↔ t.kind = .sign ∧ t.text = text := by
  simp only [accepts, Bool.and_eq_true, beq_iff_eq]

@[simp] theorem accepts_kind : (kind k).accepts t = true ↔ t.kind = k := by
  simp only [accepts, beq_iff_eq]

end Terminal

namespace Reading
variable {r r' : Reading} {next next' : List Tree → List Token → Reading}
  {other other' : Unit → Reading} {parts : List Tree} {rest : List Token}

@[simp] theorem starved_andThen : starved.andThen next = starved := rfl

@[simp] theorem rejected_andThen : rejected.andThen next = rejected := rfl

@[simp] theorem read_andThen : (read parts rest).andThen next = next parts rest := rfl

@[simp] theorem starved_orElse : starved.orElse other = starved := rfl

@[simp] theorem rejected_orElse : rejected.orElse other = other () := rfl

@[simp] theorem read_orElse : (read parts rest).orElse other = read parts rest := rfl

theorem andThen_eq_read : r.andThen next = read parts rest ↔
    ∃ mid ts, r = read mid ts ∧ next mid ts = read parts rest := by
  cases r <;> simp

theorem orElse_eq_read : r.orElse other = read parts rest ↔
    r = read parts rest ∨ r = rejected ∧ other () = read parts rest := by
  cases r <;> simp

private theorem andThen_mono (hr : r ≠ starved → r' = r)
    (hnext : ∀ parts rest, next parts rest ≠ starved → next' parts rest = next parts rest)
    (h : r.andThen next ≠ starved) : r'.andThen next' = r.andThen next := by
  cases r with
  | starved => exact absurd rfl h
  | rejected => rw [hr nofun, rejected_andThen, rejected_andThen]
  | read parts rest =>
    rw [hr nofun, read_andThen, read_andThen]
    exact hnext parts rest h

private theorem orElse_mono (hr : r ≠ starved → r' = r)
    (hother : other () ≠ starved → other' () = other ())
    (h : r.orElse other ≠ starved) : r'.orElse other' = r.orElse other := by
  cases r with
  | starved => exact absurd rfl h
  | rejected =>
    rw [hr nofun, rejected_orElse, rejected_orElse]
    exact hother h
  | read parts rest => rw [hr nofun, read_orElse, read_orElse]

end Reading

namespace Rule
variable {σ : Type} {rules : σ → Rule σ}

private theorem run_succ {fuel : Nat} {rule : Rule σ} {parts : List Tree} {ts : List Token}
    (h : run rules fuel rule parts ts ≠ .starved) :
    run rules (fuel + 1) rule parts ts = run rules fuel rule parts ts := by
  induction fuel generalizing rule parts ts with
  | zero => exact absurd rfl h
  | succ fuel ih =>
    cases rule with
    | seq a b => exact Reading.andThen_mono ih (fun _ _ => ih) h
    | alt a b => exact Reading.orElse_mono ih ih h
    | many a =>
      refine Reading.orElse_mono (fun h => ?_) (fun _ => rfl) h
      exact Reading.andThen_mono ih (fun _ _ => ih) h
    | ref name => exact ih h
    | node kind a | grow kind a | apart a | role r a | longer size a =>
      exact Reading.andThen_mono ih (fun _ _ _ => rfl) h
    | empty | token | leaf | half | lineEnd | sameLine | newLine | ahead | notAhead => rfl

theorem run_mono {fuel more : Nat} {rule : Rule σ} {parts : List Tree} {ts : List Token}
    (hle : fuel ≤ more) (h : run rules fuel rule parts ts ≠ .starved) :
    run rules more rule parts ts = run rules fuel rule parts ts := by
  induction hle with
  | refl => rfl
  | step _ ih => rw [run_succ (by rwa [ih]), ih]

end Rule
end SentinelWrap.Go
