import Mathlib.Data.List.Basic
import SentinelWrap.Path

/-! The order of paths. It is a linear order on their components, so sorting paths of which no two are
the same leaves them strictly increasing. -/
namespace SentinelWrap.Path

namespace Component

/-- The name, for components that have one. -/
def label : Component → String
  | name text => text
  | _ => ""

theorem compare_eq_compareLex :
    compare = compareLex (compareOn rank) (compareOn label) := by
  funext a b
  cases a <;> cases b <;> simp [compare, compareLex, compareOn, rank, label] <;> rfl

instance transCompare : Std.TransCmp compare := by
  rw [compare_eq_compareLex]
  infer_instance

instance lawfulCompare : Std.LawfulEqCmp compare where
  eq_of_compare {a b} h := by
    rw [compare_eq_compareLex] at h
    simp only [compareLex, compareOn, Ordering.then_eq_eq, Std.LawfulEqOrd.compare_eq_iff_eq] at h
    cases a <;> cases b <;> simp_all [rank, label]

end Component

theorem compareComponents_eq_compareLex :
    compareComponents = List.compareLex Component.compare := by
  funext as bs
  induction as generalizing bs with
  | nil => cases bs <;> rfl
  | cons a as ih =>
    cases bs with
    | nil => rfl
    | cons b bs =>
      rw [compareComponents, ih, List.compareLex_cons_cons]

instance transCompareComponents : Std.TransCmp compareComponents := by
  rw [compareComponents_eq_compareLex]
  infer_instance

instance lawfulCompareComponents : Std.LawfulEqCmp compareComponents := by
  rw [compareComponents_eq_compareLex]
  infer_instance

instance transPathCompare : Std.TransCmp compare where
  eq_swap {p q} := @Std.OrientedCmp.eq_swap _ compareComponents _ p.components q.components
  isLE_trans {p q r} :=
    @Std.TransCmp.isLE_trans _ compareComponents _ p.components q.components r.components

/-- Paths that neither precedes have the same components. -/
theorem compare_eq_iff {p q : Path} : p.compare q = .eq ↔ p.same q = true := by
  rw [compare, Std.LawfulEqCmp.compare_eq_iff_eq, same, beq_iff_eq]

theorem le_trans {p q r : Path} (hpq : p.le q = true) (hqr : q.le r = true) : p.le r = true :=
  Std.TransCmp.isLE_trans hpq hqr

theorem le_total (p q : Path) : (p.le q || q.le p) = true := by
  have hswap : q.compare p = (p.compare q).swap := Std.OrientedCmp.eq_swap
  unfold le
  rw [hswap]
  cases p.compare q <;> rfl

/-- Strictly before, in the order of paths. -/
theorem compare_eq_lt_of_le {p q : Path} (hle : p.le q = true) (hne : p.same q = false) :
    p.compare q = .lt := by
  cases h : p.compare q with
  | lt => rfl
  | eq => rw [compare_eq_iff.mp h] at hne; cases hne
  | gt => rw [le, h] at hle; cases hle

end SentinelWrap.Path
