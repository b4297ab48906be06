import SentinelWrap.Proofs.Syntax.Preorder

/-! Syntax trees without their places in a source. -/
namespace SentinelWrap

def ImportSpec.erase (spec : ImportSpec) : ImportSpec := { spec with span := none, line := none }

namespace Node

mutual

/-- The tree without spans and without the lines of import specs. -/
def erase : Node → Node
  | file _ package imports decls => file none package (imports.map ImportSpec.erase) (eraseAll decls)
  | conditional _ init condition body alternative =>
    conditional none (eraseOption init) (erase condition) (eraseAll body) (eraseOption alternative)
  | ret _ results => ret none (eraseAll results)
  | importGroup _ parenthesized specs => importGroup none parenthesized (specs.map ImportSpec.erase)
  | identifier _ name => identifier none name
  | memberAccess _ operand member => memberAccess none (erase operand) ⟨none, member.name⟩
  | comparison _ left op right => comparison none (erase left) op (erase right)
  | literal _ kind text => literal none kind text
  | call _ callee args => call none (erase callee) (eraseAll args)
  | other _ kind children => other none kind (eraseAll children)

def eraseAll : List Node → List Node
  | [] => []
  | n :: ns => erase n :: eraseAll ns

def eraseOption : Option Node → Option Node
  | none => none
  | some n => some (erase n)

end

theorem eraseAll_eq_map (ns : List Node) : eraseAll ns = ns.map erase := by
  induction ns with
  | nil => rfl
  | cons n ns ih => simp [eraseAll, ih]

theorem eraseOption_eq_map (n : Option Node) : eraseOption n = n.map erase := by
  cases n <;> rfl

@[simp] theorem identifier?_erase (n : Node) : n.erase.identifier? = n.identifier? := by
  cases n <;> rfl

@[simp] theorem isNil_erase (n : Node) : n.erase.isNil = n.isNil := by
  cases n with
  | literal span kind text => cases kind <;> rfl
  | _ => rfl

@[simp] theorem children_erase (n : Node) : n.erase.children = n.children.map erase := by
  cases n with
  | conditional span init condition body alternative =>
    cases init <;> cases alternative <;>
      simp [erase, children, eraseAll_eq_map, eraseOption_eq_map]
  | _ => simp [erase, children, eraseAll_eq_map]

theorem preorder_erase (n : Node) : n.erase.preorder = n.preorder.map erase := by
  induction n using children_induction with
  | step n ih =>
    rw [preorder_eq, preorder_eq n, children_erase, List.map_cons, List.flatMap_map,
      List.map_flatMap]
    congr 1
    exact List.flatMap_congr ih

end Node
end SentinelWrap
