import SentinelWrap.Proofs.Go.Erasure
import SentinelWrap.Proofs.Go.Grammar.Bodies
import SentinelWrap.Proofs.Go.Revision.Return
import SentinelWrap.Proofs.Wrapping.Starts

/-! Amended trees and their syntax trees: the returns that were amended are wrapped, and the import
declaration that was amended has one more spec. -/
namespace SentinelWrap.Go
open Wrapping (wrapAt beginsAt wrapEachAt_eq_map wrapOptionAt_eq_map wrapCall wrapLast wrappedReturn)

namespace Lowering

/-- The parts whose children stand in their place. -/
def Form.opened (parts : List (Role × Node)) : Form → List Node
  | conditional => (part? .consequence parts).toList
  | ret => parts.map Prod.snd
  | call => (parts.map Prod.snd).tail.getLast?.toList
  | _ => []

variable {q : String} {starts : List Nat} {tree : Tree} {parts : List (Role × Node)} {form : Form}

theorem children_wrapAt {n : Node} (h : beginsAt starts n = false) :
    (wrapAt q starts n).children = n.children.map (wrapAt q starts) := by
  cases n with
  | conditional span init condition body alternative =>
    cases init <;> cases alternative <;>
      simp [wrapAt, Node.children, wrapEachAt_eq_map, wrapOptionAt_eq_map]
  | _ => simp [wrapAt, Node.children, wrapEachAt_eq_map, h]

theorem identifier?_wrapAt (n : Node) : (wrapAt q starts n).identifier? = n.identifier? := by
  cases n with
  | ret span results =>
    unfold wrapAt
    split_ifs <;> rfl
  | _ => rfl

theorem span_wrapAt (n : Node) : (wrapAt q starts n).span = n.span := by
  cases n with
  | ret span results =>
    unfold wrapAt
    split_ifs <;> rfl
  | _ => rfl

/-- Wrapping some returns below a node is wrapping them in its parts. -/
theorem wrapAt_build? (hret : form = .ret → starts.contains tree.start = false)
    (hopened : ∀ n ∈ form.opened parts, beginsAt starts n = false) :
    form.build? tree (mapParts (wrapAt q starts) parts) =
      (form.build? tree parts).map (wrapAt q starts) := by
  cases form with
  | conditional =>
    have hbody : (((part? .consequence parts).map (wrapAt q starts)).map Node.children).getD [] =
        (((part? .consequence parts).map Node.children).getD []).map (wrapAt q starts) := by
      cases hpart : part? .consequence parts with
      | none => rfl
      | some body => simp [children_wrapAt (hopened body (by simp [Form.opened, hpart]))]
    simp only [Form.build?, conditional?_eq, part?_mapParts, hbody]
    cases part? .condition parts with
    | none => rfl
    | some condition => simp [wrapAt, wrapEachAt_eq_map, wrapOptionAt_eq_map]
  | ret =>
    have hresults : ((parts.map Prod.snd).map (wrapAt q starts)).flatMap Node.children =
        ((parts.map Prod.snd).flatMap Node.children).map (wrapAt q starts) := by
      rw [List.flatMap_map, List.map_flatMap]
      exact List.flatMap_congr fun n hn => children_wrapAt (hopened n hn)
    have hbegins : starts.contains tree.span.start = false := hret rfl
    simp only [Form.build?, map_snd_mapParts, hresults, Option.map_some, wrapAt, beginsAt, hbegins,
      wrapEachAt_eq_map]
    rfl
  | memberAccess =>
    rw [Form.build?, Form.build?, map_snd_mapParts, memberAccess?_eq, memberAccess?_eq, pair?_map]
    generalize pair? (parts.map Prod.snd) = pair
    cases pair with
    | none => rfl
    | some p => simp [Function.comp_def, identifier?_wrapAt, span_wrapAt, wrapAt]
  | comparison =>
    rw [Form.build?, Form.build?, map_snd_mapParts, comparison?_eq, comparison?_eq, pair?_map]
    generalize pair? (parts.map Prod.snd) = pair
    cases pair with
    | none => rfl
    | some p => simp [Function.comp_def, wrapAt]
  | call =>
    rw [Form.opened] at hopened
    rw [Form.build?, Form.build?, map_snd_mapParts, call?_eq, call?_eq, List.head?_map, ← List.map_tail,
      List.getLast?_map]
    generalize (parts.map Prod.snd).head? = first
    generalize (parts.map Prod.snd).tail.getLast? = last at hopened ⊢
    cases first with
    | none => rfl
    | some callee =>
      cases last with
      | none => rfl
      | some arguments =>
        simp [wrapAt, wrapEachAt_eq_map, children_wrapAt (hopened arguments (by simp))]
  | identifier | literal | other => rfl

def Form.OfKind (kind : String) : Form → Prop
  | conditional => kind = "if_statement"
  | ret => kind = "return_statement"
  | identifier => Grammar.isNameKind kind = true
  | memberAccess => kind = "selector_expression"
  | call => kind = "call_expression"
  | comparison | literal _ | other => True

theorem kind_of_ofKind {kind : String} (h : Form.ofKind kind = form) : form.OfKind kind := by
  subst h
  unfold Form.ofKind
  split
  case h_10 => cases literalKind? kind <;> trivial
  all_goals simp [Form.OfKind, Grammar.isNameKind]

theorem wrapAt_assemble
    (hret : tree.kind = "return_statement" → starts.contains tree.start = false)
    (hopened : ∀ n ∈ (Form.ofKind tree.kind).opened parts, beginsAt starts n = false) :
    assemble tree (mapParts (wrapAt q starts) parts) = wrapAt q starts (assemble tree parts) := by
  have hgetD (o : Option Node) (n : Node) :
      wrapAt q starts (o.getD n) = (o.map (wrapAt q starts)).getD (wrapAt q starts n) := by
    cases o <;> rfl
  rw [assemble_eq, assemble_eq, hgetD, wrapAt_build? (fun h => hret (kind_of_ofKind h)) hopened,
    map_snd_mapParts, wrapAt, wrapEachAt_eq_map]

private theorem kind_node_ne_ret {c : Tree} (h : c.kind ≠ "return_statement") :
    (node c).kind ≠ .ret := by
  intro hret
  cases c with
  | token t => exact h ((assembled _ _).children_of_ret hret).1
  | node kind role cs => exact h ((assembled _ _).children_of_ret hret).1

theorem nodes_append (as bs : List Tree) : nodes (as ++ bs) = nodes as ++ nodes bs := by
  induction as with
  | nil => rfl
  | cons a as ih =>
    rw [List.cons_append, nodes, nodes, ih]
    split_ifs <;> rfl

/-- No return is opened. -/
theorem kind_of_mem_opened {kind : String} {cs : List Tree} (hplain : Grammar.Plain kind cs)
    (hbodied : Grammar.Bodied kind cs) {n : Node} (hn : n ∈ (Form.ofKind kind).opened (nodes cs)) :
    n.kind ≠ .ret := by
  cases hform : Form.ofKind kind with
  | conditional =>
    rw [hform, Form.opened, Option.mem_toList] at hn
    obtain ⟨p, hp, rfl⟩ := Option.map_eq_some_iff.mp hn
    obtain ⟨c, hc, hnode, rfl⟩ := mem_nodes (List.mem_of_find?_eq_some hp)
    have hamong := hbodied.conditional (kind_of_ofKind hform) c hc
    cases c with
    | token t => cases hnode
    | node kind' role' ds =>
      refine kind_node_ne_ret ?_
      simpa [Tree.Among, Grammar.allBut, Tree.kind] using hamong
  | ret =>
    rw [hform, Form.opened] at hn
    obtain ⟨p, hp, rfl⟩ := List.mem_map.mp hn
    obtain ⟨c, hc, hnode, rfl⟩ := mem_nodes hp
    refine kind_node_ne_ret ?_
    rcases hplain.results (kind_of_ofKind hform) with ⟨t, rfl⟩ | ⟨t, results, rfl, -⟩
    · obtain rfl := List.mem_singleton.mp hc
      cases hnode
    · rcases List.mem_pair.mp hc with rfl | rfl
      · cases hnode
      · simp [Tree.kind]
  | call =>
    rw [hform, Form.opened, Option.mem_toList] at hn
    obtain ⟨init, arguments, rfl⟩ := hbodied.call (kind_of_ofKind hform)
    obtain ⟨front, hfront⟩ := List.getLast?_eq_some_iff.mp hn
    have hlast : nodes [Tree.node "argument_list" .plain arguments] =
      [(.plain, node (.node "argument_list" .plain arguments))] := rfl
    rw [nodes_append, hlast, List.map_append, List.map_singleton] at hfront
    have heq : n = node (.node "argument_list" .plain arguments) := by
      cases hinit : (nodes init).map Prod.snd with
      | nil => simp [hinit] at hfront
      | cons first more =>
        rw [hinit] at hfront
        exact (List.singleton_inj.mp (List.append_inj' hfront rfl).2).symm
    rw [heq]
    exact kind_node_ne_ret (by simp [Tree.kind])
  | identifier | memberAccess | comparison | literal | other =>
    rw [hform] at hn
    cases hn

end Lowering

open Grammar (wrapTree wrapTrees groupChildren Plain Bodied)

def specTrees (cs : List Tree) : List Tree :=
  match cs.find? (·.kind == "import_spec_list") with
  | some group => group.children.filter (·.kind == "import_spec")
  | none => cs.filter (·.kind == "import_spec")

/-- The results of the returns that begin at some offsets wrapped, and one more spec in the import
declaration that begins at some place. -/
def changeAt (q : String) (starts : List Nat) (place : Nat) (spec : Tree) : Change
  | kind, [.token u, .node kind' role cs] =>
    if kind = "return_statement" ∧ u.span.start ∈ starts then
      some [.token u, .node kind' role (wrapTrees q cs)]
    else if kind = "import_declaration" ∧ u.span.start = place then
      some (groupChildren u
        ((specTrees [.node kind' role cs]).map (Tree.withRole .plain) ++ [spec]))
    else none
  | _, _ => none

variable {q : String} {starts : List Nat} {place : Nat} {spec : Tree} {kind : String}
  {cs cs' : List Tree}

theorem of_changeAt (h : changeAt q starts place spec kind cs = some cs') :
    ∃ u kind' role ds, cs = [.token u, .node kind' role ds] ∧
      (kind = "return_statement" ∧ u.span.start ∈ starts ∧
          cs' = [.token u, .node kind' role (wrapTrees q ds)] ∨
        kind = "import_declaration" ∧ u.span.start = place ∧ cs' = groupChildren u
          ((specTrees [.node kind' role ds]).map (Tree.withRole .plain) ++ [spec])) := by
  unfold changeAt at h
  split at h
  · rename_i u kind' role ds
    refine ⟨u, kind', role, ds, rfl, ?_⟩
    split_ifs at h with hreturn himport
    · exact .inl ⟨hreturn.1, hreturn.2, (Option.some.inj h).symm⟩
    · exact .inr ⟨himport.1, himport.2, (Option.some.inj h).symm⟩
  · cases h

theorem changeAt_eq_none (hreturn : kind ≠ "return_statement") (himport : kind ≠ "import_declaration") :
    changeAt q starts place spec kind cs = none := by
  cases h : changeAt q starts place spec kind cs with
  | none => rfl
  | some cs' =>
    obtain ⟨_, _, _, _, -, ⟨hkind, -⟩ | ⟨hkind, -⟩⟩ := of_changeAt h
    · exact absurd hkind hreturn
    · exact absurd hkind himport

theorem keeps_amend : Lowering.Keeps (Tree.amend (changeAt q starts place spec)) where
  isNode t := by cases t <;> simp [Tree.amend, Tree.isNode]
  kind t := by cases t <;> simp [Tree.amend, Tree.kind]
  leafText t := by
    cases t with
    | token t => rw [Tree.amend_token]
    | node kind role cs =>
      cases h : changeAt q starts place spec kind cs with
      | none =>
        rw [Tree.amend_of_none h]
        rcases cs with _ | ⟨_ | _, cs⟩ <;> simp [Tree.leafText, Tree.amend]
      | some cs' =>
        rw [Tree.amend_of_some h]
        obtain ⟨u, _, _, _, rfl, ⟨-, -, rfl⟩ | ⟨-, -, rfl⟩⟩ := of_changeAt h <;> rfl
  children t hreturn himport := by
    cases t with
    | token t => simp [Tree.children]
    | node kind role cs =>
      exact congrArg Tree.children (Tree.amend_of_none (changeAt_eq_none hreturn himport) role)

private theorem signs_map_amend {change : Change} (cs : List Tree) :
    Tree.signs (cs.map (Tree.amend change)) = Tree.signs cs := by
  induction cs with
  | nil => rfl
  | cons c cs ih => cases c <;> simp [Tree.amend, Tree.signs, ih]

private theorem role_amend {change : Change} (t : Tree) : (t.amend change).role = t.role := by
  cases t <;> simp [Tree.amend, Tree.role]

private theorem wrapTrees_append (Xs : List Tree) (X : Tree) :
    wrapTrees q (Xs ++ [X]) = Xs ++ [wrapTree q X] := by
  induction Xs with
  | nil => rfl
  | cons Y Xs ih =>
    rw [List.cons_append, wrapTrees, ih, List.cons_append]
    simp

namespace Lowering

private theorem erase_node_wrapTree {X : Tree} (hX : X.isNode = true) :
    (node (wrapTree q X)).erase = (wrapCall q (node X)).erase := by
  cases X with
  | token t => cases hX
  | node kind role cs => rfl

/-- A return with results. -/
theorem node_returnTree (role : Role) (u : Token) (Xs : List Tree) :
    node (.node "return_statement" role [.token u, .node "expression_list" .plain Xs]) =
      .ret (some (Tree.node "return_statement" role
        [.token u, .node "expression_list" .plain Xs]).span) ((nodes Xs).map Prod.snd) := by
  have hlist : (node (.node "expression_list" .plain Xs)).children = (nodes Xs).map Prod.snd := rfl
  have hnode : node (.node "return_statement" role [.token u, .node "expression_list" .plain Xs]) =
    .ret (some (Tree.node "return_statement" role
        [.token u, .node "expression_list" .plain Xs]).span)
      ([node (.node "expression_list" .plain Xs)].flatMap Node.children) := rfl
  rw [hnode, List.flatMap_singleton, hlist]

theorem erase_wrapTrees {Xs : List Tree} {X : Tree} (hX : X.isNode = true) :
    ((nodes (wrapTrees q (Xs ++ [X]))).map Prod.snd).map Node.erase =
      (wrapLast q ((nodes (Xs ++ [X])).map Prod.snd)).map Node.erase := by
  have hone (Y : Tree) (hY : Y.isNode = true) : (nodes [Y]).map Prod.snd = [node Y] := by
    simp [nodes, hY]
  have hall (Y : Tree) (hY : Y.isNode = true) :
      (nodes (Xs ++ [Y])).map Prod.snd = (nodes Xs).map Prod.snd ++ [node Y] := by
    rw [nodes_append, List.map_append, hone Y hY]
  rw [wrapTrees_append, hall X hX, hall (wrapTree q X) rfl, Wrapping.wrapLast_append]
  simp [erase_node_wrapTree hX]

end Lowering

/-- What a node below a declaration is like, to be amended: it is no import declaration at the place,
and the last result of a return is a node. -/
structure Amendable (q : String) (starts : List Nat) (place : Nat) (spec : Tree) (kind : String)
    (cs : List Tree) : Prop where
  plain : Plain kind cs
  bodied : Bodied kind cs
  kept : kind = "import_declaration" → changeAt q starts place spec kind cs = none
  last : kind = "return_statement" → ∀ u Xs, cs = [.token u, .node "expression_list" .plain Xs] →
    ∃ init X, Xs = init ++ [X] ∧ X.isNode = true

namespace Lowering

/-- Amending a return wraps it in the syntax tree. -/
theorem erase_node_amend_return {role : Role}
    (h : Amendable q starts place spec "return_statement" cs)
    (hsome : changeAt q starts place spec "return_statement" cs = some cs') :
    (node (.node "return_statement" role cs')).erase =
      (wrapAt q starts (node (.node "return_statement" role cs))).erase := by
  obtain ⟨u, kind', role', ds, rfl, ⟨-, hu, rfl⟩ | ⟨hkind, -⟩⟩ := of_changeAt hsome
  · obtain ⟨t, hcs⟩ | ⟨t, results, hcs, -⟩ := h.plain.results rfl
    · cases hcs
    obtain ⟨-, rfl, rfl, rfl⟩ : u = t ∧ kind' = "expression_list" ∧ role' = .plain ∧ ds = results := by
      simpa using hcs
    obtain ⟨init, X, rfl, hX⟩ := h.last rfl u ds rfl
    have hbegins (results : List Node) : beginsAt starts (.ret (some (Tree.node "return_statement" role
        [.token u, .node "expression_list" .plain (init ++ [X])]).span) results) = true := by
      simpa [beginsAt, Tree.span, Tree.start, Tree.startOfList] using hu
    rw [node_returnTree, node_returnTree, wrapAt, if_pos (hbegins _), wrappedReturn, Node.erase,
      Node.erase, Node.eraseAll_eq_map, Node.eraseAll_eq_map, erase_wrapTrees hX]
  · exact absurd hkind (by decide)

/-- A return that is not amended begins at none of the offsets or has no results. -/
theorem contains_start_of_none {role : Role}
    (h : Amendable q starts place spec "return_statement" cs)
    (hnone : changeAt q starts place spec "return_statement" cs = none) :
    starts.contains (Tree.node "return_statement" role cs).start = false ∨
      ∃ t, cs = [.token t] := by
  obtain ⟨t, rfl⟩ | ⟨t, results, rfl, -⟩ := h.plain.results rfl
  · exact .inr ⟨t, rfl⟩
  · left
    have hnot : t.span.start ∉ starts := by
      intro hmem
      simp [changeAt, hmem] at hnone
    simpa [Tree.start, Tree.startOfList] using hnot

/-- In a return without results there is nothing to wrap. -/
theorem erase_node_bareReturn (role : Role) (t : Token) :
    (node (.node "return_statement" role [.token t])).erase =
      (wrapAt q starts (node (.node "return_statement" role [.token t]))).erase := by
  have hnode : node (.node "return_statement" role [.token t]) =
    .ret (some (Tree.node "return_statement" role [.token t]).span) [] := rfl
  rw [hnode, wrapAt]
  split_ifs <;> rfl

/-- Amending the concrete tree wraps the returns in the syntax tree. -/
theorem erase_node_amend {t : Tree} (h : t.Every (Amendable q starts place spec))
    (hnode : t.isNode = true) :
    (node (t.amend (changeAt q starts place spec))).erase = (wrapAt q starts (node t)).erase := by
  induction t using Tree.children_induction with
  | token t => cases hnode
  | node kind role cs ih =>
    cases h with
    | node _ h hall =>
    cases hchange : changeAt q starts place spec kind cs with
    | none =>
      by_cases hbare : kind = "return_statement" ∧ ∃ t, cs = [.token t]
      · obtain ⟨rfl, t, rfl⟩ := hbare
        rw [Tree.amend_of_none hchange]
        exact erase_node_bareReturn role t
      have hreturn : kind = "return_statement" →
          starts.contains (Tree.node kind role cs).start = false := by
        rintro rfl
        exact (contains_start_of_none h hchange).resolve_right fun hone => hbare ⟨rfl, hone⟩
      have hopened : ∀ n ∈ (Form.ofKind kind).opened (nodes cs), beginsAt starts n = false := by
        intro n hn
        have hkind := kind_of_mem_opened h.plain h.bodied hn
        cases n with
        | ret => exact absurd rfl hkind
        | _ => rfl
      have hleaf := (@keeps_amend q starts place spec).leafText (.node kind role cs)
      rw [Tree.amend_of_none hchange] at hleaf ⊢
      rw [node, node, ← @wrapAt_assemble q starts (.node kind role cs) (nodes cs) hreturn hopened]
      refine erase_assemble rfl hleaf (signs_map_amend cs) ?_
      have hparts : mapParts Node.erase (nodes (cs.map (Tree.amend (changeAt q starts place spec)))) =
          mapParts (fun n => (wrapAt q starts n).erase) (nodes cs) :=
        mapParts_nodes keeps_amend.isNode role_amend fun c hc hcnode => ih c hc (hall c hc) hcnode
      rw [hparts]
      simp [mapParts]
    | some cs' =>
      rw [Tree.amend_of_some hchange]
      obtain ⟨_, _, _, _, -, ⟨rfl, -⟩ | ⟨hkind, -⟩⟩ := of_changeAt hchange
      · exact erase_node_amend_return h hchange
      · rw [h.kept hkind] at hchange
        cases hchange

end Lowering
end SentinelWrap.Go
