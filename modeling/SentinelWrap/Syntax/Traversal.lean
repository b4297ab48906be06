import SentinelWrap.Syntax.Node
/-!
Depth-first traversal. A callback hears of every node of the chosen kinds twice: before its
children and after them. It may refuse the children, and then it does not hear of leaving.
-/
namespace SentinelWrap

inductive Action
  | visit
  | leave
deriving DecidableEq, Repr

/-- A set of kinds of nodes, with one bit for each of them. -/
structure NodeFilter where
  mask : UInt16
deriving DecidableEq, Repr

namespace NodeFilter

/-- Kinds are numbered in the order in which they are declared. -/
def bit (kind : NodeKind) : UInt16 := 1 <<< kind.ctorIdx.toUInt16

def only (kinds : List NodeKind) : NodeFilter := ⟨kinds.foldl (fun mask kind => mask ||| bit kind) 0⟩

def contains (filter : NodeFilter) (kind : NodeKind) : Bool := filter.mask &&& bit kind != 0

end NodeFilter

/-- Answers whether to go on into the children; the answer to a `leave` is not looked at. -/
abbrev Visitor (σ : Type) := Node → Action → σ → Bool × σ

namespace Node

/-- One step of a traversal, given the traversals of the children. -/
def inspectStep {σ : Type} (filter : NodeFilter) (visitor : Visitor σ) (node : Node)
    (children : List (σ → σ)) (state : σ) : σ :=
  let below (state : σ) := children.foldl (fun state child => child state) state
  if filter.contains node.kind then
    match visitor node .visit state with
    | (true, state) => (visitor node .leave (below state)).2
    | (false, state) => state
  else below state

def inspect {σ : Type} (filter : NodeFilter) (visitor : Visitor σ) : Node → σ → σ :=
  fold (inspectStep filter visitor)

end Node
end SentinelWrap
