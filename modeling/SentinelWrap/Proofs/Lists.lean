import Mathlib.Data.List.Forall2

/-! Lists that are mapped in one go or not at all, and lists that are cut in two. -/
namespace SentinelWrap

theorem mapM_eq_ok {α β ε : Type} {f : α → Except ε β} {as : List α} {bs : List β}
    (h : as.mapM f = .ok bs) : List.Forall₂ (fun a b => f a = .ok b) as bs := by
  induction as generalizing bs with
  | nil =>
    obtain rfl : [] = bs := Except.ok.inj h
    exact .nil
  | cons a as ih =>
    rw [List.mapM_cons] at h
    cases ha : f a with
    | error e => rw [ha] at h; cases h
    | ok b =>
      cases has : as.mapM f with
      | error e => rw [ha, has] at h; cases h
      | ok bs' =>
        rw [ha, has] at h
        obtain rfl : b :: bs' = bs := Except.ok.inj h
        exact .cons ha (ih has)

theorem mapM_eq_some_iff {α β : Type} {f : α → Option β} {xs : List α} {ys : List β} :
    xs.mapM f = some ys ↔ xs.map f = ys.map some := by
  induction xs generalizing ys with
  | nil => cases ys <;> simp
  | cons x xs ih =>
    simp only [List.mapM_cons, Option.pure_def, Option.bind_eq_bind, Option.bind_eq_some_iff,
      Option.some.injEq, ih, List.map_cons]
    constructor
    · rintro ⟨y, hy, ys, hys, rfl⟩
      rw [hy, hys, List.map_cons]
    · intro h
      obtain ⟨y, ys, rfl, hy, hys⟩ := List.map_eq_cons_iff.mp h.symm
      exact ⟨y, hy.symm, ys, hys.symm, rfl⟩

theorem mapM_eq_some_map {α β : Type} {f : α → Option β} {g : α → β} {xs : List α}
    (h : ∀ x ∈ xs, f x = some (g x)) : xs.mapM f = some (xs.map g) := by
  rw [mapM_eq_some_iff, List.map_map]
  exact List.map_congr_left h

theorem exists_append_of_forall₂ {α β : Type} {R : α → β → Prop} {as bs : List α} {cs : List β}
    (h : List.Forall₂ R (as ++ bs) cs) :
    ∃ as' bs', cs = as' ++ bs' ∧ List.Forall₂ R as as' ∧ List.Forall₂ R bs bs' := by
  induction as generalizing cs with
  | nil => exact ⟨[], cs, rfl, .nil, h⟩
  | cons a as ih =>
    cases h with
    | cons hfirst hrest =>
      obtain ⟨as', bs', rfl, has, hbs⟩ := ih hrest
      exact ⟨_ :: as', bs', rfl, .cons hfirst has, hbs⟩

theorem exists_suffix_of_not_mem {α : Type} {as bs cs ds : List α} {r : α}
    (h : as ++ bs = cs ++ r :: ds) (hr : r ∉ as) : ∃ es, bs = es ++ r :: ds := by
  rcases List.append_eq_append_iff.mp h with ⟨es, -, hbs⟩ | ⟨es, has, hrest⟩
  · exact ⟨es, hbs⟩
  · cases es with
    | nil => exact ⟨[], by simpa using hrest.symm⟩
    | cons e es =>
      obtain ⟨rfl, -⟩ := List.cons.inj hrest
      exact absurd (by simp [has]) hr

end SentinelWrap
