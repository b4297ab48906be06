import SentinelWrap.Proofs.Go.Grammar.Calls

/-! How many parts a rule adds, and whether the last one is a node. An expression is always one node. -/
namespace SentinelWrap.Go

namespace Rule
variable {σ : Type} {rules : σ → Rule σ} {table : σ → Nat → Option Nat}

/-- The number of parts after the rule, if it depends on nothing but the number before. -/
def count (table : σ → Nat → Option Nat) : Rule σ → Nat → Option Nat
  | empty, n | sameLine, n | newLine, n | ahead _, n | notAhead _, n => some n
  | token _, n | leaf _ _, n | half _ _, n | lineEnd, n | node _ _, n => some (n + 1)
  | seq a b, n => (a.count table n).bind (b.count table)
  | alt a b, n => (a.count table n).bind fun k => if b.count table n = some k then some k else none
  | many a, n => if a.count table n = some n then some n else none
  | ref name, n => table name n
  | grow _ _, _ => some 1
  | apart a, n | role _ a, n | longer _ a, n => (a.count table 0).map (n + ·)

theorem count_alt {a b : Rule σ} {n k : Nat} :
    (alt a b).count table n = some k ↔ a.count table n = some k ∧ b.count table n = some k := by
  simp only [count, Option.bind_eq_some_iff, Option.ite_none_right_eq_some, Option.some.injEq]
  constructor
  · rintro ⟨x, ha, hb, rfl⟩
    exact ⟨ha, hb⟩
  · rintro ⟨ha, hb⟩
    exact ⟨k, ha, hb, rfl⟩

private theorem count_oneOf {first : Rule σ} {rest : List (Rule σ)} {n k : Nat}
    (h : ∀ a ∈ first :: rest, a.count table n = some k) :
    (oneOf first rest).count table n = some k := by
  induction rest generalizing first with
  | nil => exact h first List.mem_cons_self
  | cons next rest ih =>
    obtain ⟨hfirst, hrest⟩ := List.forall_mem_cons.mp h
    exact count_alt.mpr ⟨hfirst, ih hrest⟩

theorem Derives.length_eq
    (htable : ∀ name n k, table name n = some k → (rules name).count table n = some k)
    {rule : Rule σ} {parts last : List Tree} {ts us : List Token} {k : Nat}
    (h : Derives rules rule parts ts last us) (hcount : rule.count table parts.length = some k) :
    last.length = k := by
  induction h generalizing k with
  | empty | sameLine | newLine | ahead | notAhead | token | leaf | half | lineEnd | node | grow =>
    exact Option.some.inj hcount
  | seq _ _ iha ihb =>
    obtain ⟨m, ha, hb⟩ := Option.bind_eq_some_iff.mp hcount
    exact ihb (by rwa [iha ha])
  | altLeft _ ih => exact ih (count_alt.mp hcount).1
  | altRight _ ih => exact ih (count_alt.mp hcount).2
  | manyStop =>
    simp only [count, Option.ite_none_right_eq_some, Option.some.injEq] at hcount
    exact hcount.2
  | manyStep _ _ iha ihs =>
    have hmid := iha (Option.ite_none_right_eq_some.mp hcount).1
    exact ihs (by rwa [hmid])
  | ref _ _ ih => exact ih (htable _ _ _ hcount)
  | apart _ ih | longer _ _ ih =>
    obtain ⟨m, hm, rfl⟩ := Option.map_eq_some_iff.mp hcount
    rw [List.length_append, ih hm, Nat.add_comm]
  | role _ ih =>
    obtain ⟨m, hm, rfl⟩ := Option.map_eq_some_iff.mp hcount
    rw [List.length_append, List.length_map, ih hm, Nat.add_comm]

def topped (table : σ → Bool) : Rule σ → Bool → Bool
  | empty, b | sameLine, b | newLine, b | ahead _, b | notAhead _, b => b
  | token _, _ | half _ _, _ | lineEnd, _ => false
  | leaf _ _, _ | node _ _, _ | grow _ _, _ => true
  | seq a c, b => c.topped table (a.topped table b)
  | alt a c, b => a.topped table b && c.topped table b
  | many a, b => b && a.topped table true
  | ref name, _ => table name
  | apart a, _ | role _ a, _ | longer _ a, _ => a.topped table false

theorem Derives.exists_isNode {table : σ → Bool} {rule : Rule σ} {parts last : List Tree}
    {ts us : List Token} {b : Bool}
    (htable : ∀ name, table name = true → (rules name).topped table false = true)
    (h : Derives rules rule parts ts last us) (hrule : rule.topped table b = true)
    (hparts : b = true → ∃ t more, parts = t :: more ∧ t.isNode = true) :
    ∃ t more, last = t :: more ∧ t.isNode = true := by
  have hnone {parts : List Tree} (h : false = true) : ∃ t more, parts = t :: more ∧ t.isNode = true := by
    cases h
  induction h generalizing b with
  | empty | sameLine | newLine | ahead | notAhead => exact hparts hrule
  | manyStop => exact hparts (Bool.and_eq_true_iff.mp hrule).1
  | token | half | lineEnd => cases hrule
  | leaf | node | grow => exact ⟨_, _, rfl, rfl⟩
  | seq _ _ iha ihb => exact ihb hrule fun hmid => iha hmid hparts
  | altLeft _ ih => exact ih (Bool.and_eq_true_iff.mp hrule).1 hparts
  | altRight _ ih => exact ih (Bool.and_eq_true_iff.mp hrule).2 hparts
  | manyStep _ _ iha ihs =>
    obtain ⟨hb, ha⟩ := Bool.and_eq_true_iff.mp hrule
    subst hb
    exact ihs hrule fun _ => iha ha hparts
  | ref _ _ ih => exact ih (htable _ hrule) hnone
  | apart _ ih | longer _ _ ih =>
    obtain ⟨t, more, rfl, ht⟩ := ih hrule hnone
    exact ⟨t, _, rfl, ht⟩
  | role _ ih =>
    obtain ⟨t, more, rfl, ht⟩ := ih hrule hnone
    cases t with
    | token t => cases ht
    | node => exact ⟨_, _, rfl, rfl⟩

end Rule

namespace Grammar
open Rule

/-- Expressions and what they begin with are one part, and a suffix makes one of all there are. -/
def parted : Symbol → Nat → Option Nat
  | .expression _, n | .binary _ _, n | .unary _, n | .primary _, n | .operand _, n
  | .firmType _ _, n | .softType _, n => some (n + 1)
  | .suffix _, _ => some 1
  | _, _ => none

theorem count_rule (name : Symbol) (n k : Nat) (h : parted name n = some k) :
    name.rule.count parted n = some k := by
  cases name with
  | expression follow => exact h
  | binary follow level =>
    rw [← h]
    by_cases hlevel : level < 5 <;> cases hline : follow.lineEnd <;>
      simp [Symbol.rule, binary, append_eq, hlevel, hline, joined, count, parted]
  | unary follow =>
    refine count_oneOf (List.forall_mem_cons.mpr ⟨?_, List.forall_mem_cons.mpr ⟨h, ?_⟩⟩)
    · exact Option.bind_eq_some_iff.mpr ⟨n, count_alt.mpr ⟨rfl, rfl⟩, h⟩
    · exact List.forall_mem_singleton.mpr h
  | primary follow =>
    obtain ⟨lineEnd, _, _, _, _⟩ := follow
    cases lineEnd <;> exact h
  | operand follow =>
    obtain ⟨lineEnd, block, noLiteral, _, _⟩ := follow
    refine count_oneOf (List.forall_mem_cons.mpr ⟨count_alt.mpr ⟨h, h⟩, ?_⟩)
    cases lineEnd <;> cases block <;> cases noLiteral <;>
      (repeat first | exact List.forall_mem_singleton.mpr h | refine List.forall_mem_cons.mpr ⟨h, ?_⟩)
  | firmType lineEnd plain =>
    have hchannel : (channelType false).count parted n = some k :=
      count_alt.mpr ⟨h, count_alt.mpr ⟨h, h⟩⟩
    have hnegated : (negatedType false).count parted n = some k := count_alt.mpr ⟨h, h⟩
    have hgeneric : (genericOperand lineEnd plain).count parted n = some k := by
      cases lineEnd <;> cases plain <;> exact h
    refine count_oneOf fun a ha => ?_
    simp only [List.mem_cons, List.not_mem_nil, or_false] at ha
    rcases ha with rfl | rfl | rfl | rfl | rfl | rfl | rfl | rfl | rfl | rfl | rfl <;>
      first | exact h | exact hchannel | exact hnegated | exact hgeneric
  | softType lineEnd =>
    have hname : (operandType lineEnd).count parted n = some k := by
      refine count_alt.mpr ⟨h, ?_⟩
      cases lineEnd <;> exact h
    exact count_alt.mpr ⟨hname, count_alt.mpr ⟨h, h⟩⟩
  | suffix follow =>
    obtain ⟨_, _, _, _, typeSwitch⟩ := follow
    obtain rfl := Option.some.inj h
    cases typeSwitch <;> rfl
  | _ => cases h

/-- An expression is one part more. -/
theorem exists_cons_of_expression {follow : Follow} {parts last : List Tree} {ts us : List Token}
    (h : Derives Symbol.rule (.ref (.expression follow)) parts ts last us) :
    ∃ X, last = X :: parts := by
  have hlength : last.length = parts.length + 1 := h.length_eq count_rule rfl
  cases h with
  | ref _ h =>
    cases h with
    | ref _ h =>
      cases h with
      | @apart _ _ more _ _ h =>
        have hone : more.length = 1 := by
          rw [List.length_append] at hlength
          omega
        obtain ⟨X, rfl⟩ := List.length_eq_one_iff.mp hone
        exact ⟨X, rfl⟩

private theorem topped_rule (name : Symbol) (h : (parted name 0).isSome = true) :
    name.rule.topped (fun name => (parted name 0).isSome) false = true := by
  refine Symbol.of_allFlags (p := fun name =>
    name.rule.topped (fun name => (parted name 0).isSome) false) ?_
  cases name with
  | expression | unary | binary | primary | operand | firmType | softType | suffix => rfl
  | _ => cases h

theorem isNode_of_expression {follow : Follow} {parts : List Tree} {ts us : List Token} {X : Tree}
    (h : Derives Symbol.rule (.ref (.expression follow)) parts ts (X :: parts) us) :
    X.isNode = true := by
  obtain ⟨Y, more, heq, hY⟩ := h.exists_isNode (b := false) topped_rule rfl nofun
  rwa [(List.cons.inj heq).1]

end Grammar
end SentinelWrap.Go
