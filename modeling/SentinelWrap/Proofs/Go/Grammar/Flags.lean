import SentinelWrap.Go.Grammar.Rules

/-! Checks of named rules, for every value of the flags that the names carry. -/
namespace SentinelWrap.Go

def bothFlags (p : Bool → Bool) : Bool := p false && p true

@[simp] theorem bothFlags_eq_true {p : Bool → Bool} :
    bothFlags p = true ↔ ∀ b, p b = true := by
  rw [bothFlags, Bool.and_eq_true, Bool.forall_bool]

namespace Symbol

/-- The check of all names that differ from this one in flags that its rule looks at. -/
def allFlags (p : Symbol → Bool) : Symbol → Bool
  | result _ => bothFlags fun lineEnd => p (result lineEnd)
  | type _ => bothFlags fun lineEnd => p (type lineEnd)
  | simpleType _ => bothFlags fun lineEnd => p (simpleType lineEnd)
  | namedType _ => bothFlags fun lineEnd => p (namedType lineEnd)
  | softType _ => bothFlags fun lineEnd => p (softType lineEnd)
  | typeElement _ => bothFlags fun lineEnd => p (typeElement lineEnd)
  | firmType _ _ => bothFlags fun lineEnd => bothFlags fun plain => p (firmType lineEnd plain)
  | simple first later => bothFlags fun lineEnd => p (simple { first with lineEnd } later)
  | expressions follow => bothFlags fun lineEnd => p (expressions { follow with lineEnd })
  | primary follow => bothFlags fun lineEnd => p (primary { follow with lineEnd })
  | suffix follow => bothFlags fun typeSwitch => p (suffix { follow with typeSwitch })
  | operand follow => bothFlags fun lineEnd => bothFlags fun block => bothFlags fun noLiteral =>
      p (operand { follow with lineEnd, block, noLiteral })
  -- Above the highest level all rules are the same.
  | binary follow level => bothFlags fun lineEnd => bothFlags fun step =>
      [0, 1, 2, 3, 4, 5, level - 6 + 6].all (p ∘ binary { follow with lineEnd, step })
  | name => p name

theorem of_allFlags {p : Symbol → Bool} {name : Symbol} (h : name.allFlags p = true) :
    p name = true := by
  cases name with
  | binary follow level =>
    simp only [allFlags, bothFlags_eq_true, List.all_eq_true] at h
    refine h follow.lineEnd follow.step level ?_
    simp only [List.mem_cons]
    omega
  | operand follow =>
    simp only [allFlags, bothFlags_eq_true] at h
    exact h follow.lineEnd follow.block follow.noLiteral
  | suffix follow =>
    simp only [allFlags, bothFlags_eq_true] at h
    exact h follow.typeSwitch
  | simple follow later | expressions follow | primary follow =>
    simp only [allFlags, bothFlags_eq_true] at h
    exact h follow.lineEnd
  | firmType lineEnd plain =>
    simp only [allFlags, bothFlags_eq_true] at h
    exact h lineEnd plain
  | result lineEnd | type lineEnd | simpleType lineEnd | namedType lineEnd | softType lineEnd
  | typeElement lineEnd =>
    simp only [allFlags, bothFlags_eq_true] at h
    exact h lineEnd
  | _ => exact h

end Symbol
end SentinelWrap.Go
