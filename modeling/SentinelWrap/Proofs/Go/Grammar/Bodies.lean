import SentinelWrap.Proofs.Go.Grammar.Parts

/-! The bodies of conditionals and the arguments of calls: nodes whose children stand in the syntax tree
in their place. None of them is a return. -/
namespace SentinelWrap.Go

namespace Rule
variable {σ : Type} {rules : σ → Rule σ}

theorem builds_oneOf {P : String → List Tree → Prop} {first : Rule σ} {rest : List (Rule σ)}
    (h : ∀ r ∈ first :: rest, r.Builds rules P) : (oneOf first rest).Builds rules P := by
  induction rest generalizing first with
  | nil => exact h first List.mem_cons_self
  | cons next rest ih =>
    obtain ⟨hfirst, hrest⟩ := List.forall_mem_cons.mp h
    exact ⟨hfirst, ih hrest⟩

end Rule

namespace Grammar
open Rule

/-- No part of a conditional is a return, and a call ends in its arguments. -/
structure Bodied (kind : String) (children : List Tree) : Prop where
  conditional : kind = "if_statement" →
    ∀ c ∈ children, c.Among (allBut "return_statement") (fun _ => true)
  call : kind = "call_expression" →
    ∃ init arguments, children = init ++ [.node "argument_list" .plain arguments]

def isBodied (kind : String) : Bool := ["if_statement", "call_expression"].contains kind

private theorem bodied_of_not {kind : String} (h : isBodied kind = false) (children : List Tree) :
    Bodied kind children := by
  refine ⟨?_, ?_⟩ <;> (rintro rfl; cases h)

theorem builds_bodied {rule : GoRule} (h : rule.ordinary isBodied (fun _ => false) = true) :
    rule.Builds Symbol.rule Bodied :=
  builds_of_ordinary (fun _ t hkind => bodied_of_not hkind [.token t])
    (fun _ children hkind _ => bodied_of_not hkind children) h

private theorem ordinary_bodied {name : Symbol} (hconditional : name ≠ .conditional)
    (hsuffix : ∀ follow, name ≠ .suffix follow) (hoperand : ∀ follow, name ≠ .operand follow) :
    name.rule.ordinary isBodied (fun _ => false) = true := by
  refine Symbol.of_allFlags (p := fun name => name.rule.ordinary isBodied (fun _ => false)) ?_
  cases name with
  | conditional => exact absurd rfl hconditional
  | suffix follow => exact absurd rfl (hsuffix follow)
  | operand follow => exact absurd rfl (hoperand follow)
  | _ => rfl

/-- A rule whose last part is a list of arguments grows calls. -/
theorem builds_call {a : GoRule} (ha : a.Builds Symbol.rule Bodied)
    (hlast : ∀ parts ts last us, Derives Symbol.rule a parts ts last us →
      ∃ arguments more, last = .node "argument_list" .plain arguments :: more) :
    (grow "call_expression" a).Builds Symbol.rule Bodied := by
  refine ⟨fun parts ts children us h => ⟨fun hkind => absurd hkind (by decide), fun _ => ?_⟩, ha⟩
  obtain ⟨arguments, more, rfl⟩ := hlast parts ts children us h
  exact ⟨more.reverse, arguments, by simp⟩

private theorem exists_arguments {parts last : List Tree} {ts us : List Token}
    (h : Derives Symbol.rule (.ref .arguments) parts ts last us) :
    ∃ arguments more, last = .node "argument_list" .plain arguments :: more := by
  cases h with
  | ref _ h =>
    cases h
    exact ⟨_, _, rfl⟩

private theorem builds_allocation (follow : Follow) :
    (allocation follow).Builds Symbol.rule Bodied := by
  have hcall := @builds_call (node "argument_list"
    (parens (opt (type false ++ many (comma ++ expression .inside) ++ opt comma)))) (builds_bodied rfl)
    fun parts ts last us h => by
      cases h
      exact ⟨_, _, rfl⟩
  obtain ⟨lineEnd, _, _, _, _⟩ := follow
  cases lineEnd
  · exact ⟨builds_bodied rfl, ⟨trivial, hcall⟩, builds_bodied rfl⟩
  · exact ⟨builds_bodied rfl, ⟨trivial, hcall⟩, builds_bodied rfl⟩

theorem builds_operand (follow : Follow) : (operand follow).Builds Symbol.rule Bodied := by
  have hallocation := builds_allocation follow
  obtain ⟨lineEnd, block, noLiteral, _, _⟩ := follow
  refine builds_oneOf ?_
  cases lineEnd <;> cases block <;> cases noLiteral <;>
    (repeat first
      | exact List.forall_mem_singleton.mpr (builds_bodied rfl)
      | refine List.forall_mem_cons.mpr ⟨builds_bodied rfl, ?_⟩
      | refine List.forall_mem_cons.mpr ⟨hallocation, ?_⟩)

theorem builds_suffix (follow : Follow) : (suffix follow).Builds Symbol.rule Bodied := by
  have hcall : (grow "call_expression" (.ref .arguments)).Builds Symbol.rule Bodied :=
    builds_call trivial fun _ _ _ _ => exists_arguments
  have hcall' (types : Symbol) :
      (grow "call_expression" (.ref types ++ .ref .arguments)).Builds Symbol.rule Bodied := by
    refine builds_call ⟨trivial, trivial⟩ fun _ _ _ _ h => ?_
    cases h with
    | seq _ harguments => exact exists_arguments harguments
  obtain ⟨_, _, _, _, typeSwitch⟩ := follow
  refine builds_oneOf ?_
  cases typeSwitch <;>
    (repeat first
      | exact List.forall_mem_singleton.mpr (hcall' _)
      | refine List.forall_mem_cons.mpr ⟨hcall' _, ?_⟩
      | refine List.forall_mem_cons.mpr ⟨hcall, ?_⟩
      | refine List.forall_mem_cons.mpr ⟨builds_bodied rfl, ?_⟩)

theorem builds_conditional : conditional.Builds Symbol.rule Bodied := by
  refine ⟨fun ts children us h => ⟨fun _ c hc => ?_, fun hkind => absurd hkind (by decide)⟩, ?_⟩
  · exact h.among addsOnly_noReturn rfl (List.forall_mem_nil _) c (List.mem_reverse.mp hc)
  · exact builds_bodied rfl

/-- Every conditional and every call that is read is as it should be. -/
theorem bodied_rule (name : Symbol) : name.rule.Builds Symbol.rule Bodied := by
  by_cases hconditional : name = .conditional
  · subst hconditional
    exact builds_conditional
  by_cases hsuffix : ∃ follow, name = .suffix follow
  · obtain ⟨follow, rfl⟩ := hsuffix
    exact builds_suffix follow
  by_cases hoperand : ∃ follow, name = .operand follow
  · obtain ⟨follow, rfl⟩ := hoperand
    exact builds_operand follow
  refine builds_bodied (ordinary_bodied hconditional ?_ ?_)
  · exact fun follow h => hsuffix ⟨follow, h⟩
  · exact fun follow h => hoperand ⟨follow, h⟩

end Grammar
end SentinelWrap.Go
